/-
  Raw sockets and the processes that open them: the socket calls of `net_syscalls.c`, and
  `sys_fork`, `sys_exit`, `sys_waitpid` and `process_destroy`.

  The sockets are one table for all processes.  `opener` is not a variable of the kernel: it
  tells which process has opened the socket of a slot.
-/
import Kabanos.Lib.Runs
import Kabanos.Net.Receive

namespace Kabanos

open Function (update update_apply)

variable {packet : Buf} {n n' : Net} {i : ℕ}

/-! ## The socket calls -/

def Socket.zero : Socket := ⟨false, 0, fun _ => ⟨fun _ => 0, 0, 0⟩, 0, 0, 0⟩

abbrev socketFdBase : Int := 64

/-- The first slot that is not in use. -/
def Net.freeSlot (n : Net) : Option ℕ :=
  (List.range maxSockets).find? fun i => !(n.sockets i).inUse

def sysSocket (n : Net) (domain type protocol : ℕ) : Net × Int :=
  if domain ≠ 1 ∨ type ≠ 1 then (n, -124)
  else
    match n.freeSlot with
    | some i =>
      let s := { Socket.zero with inUse := true, boundProtocol := protocol % 2 ^ 16 }
      ({ n with sockets := update n.sockets i s }, socketFdBase + i)
    | none => (n, -23)

/-- The slot of a descriptor, if a socket is open there. -/
def Net.slotOf (n : Net) (fd : Int) : Option ℕ :=
  let idx := fd - socketFdBase
  if idx < 0 ∨ maxSockets ≤ idx then none
  else if !(n.sockets idx.toNat).inUse then none
  else some idx.toNat

def sysNetClose (n : Net) (fd : Int) : Net × Int :=
  match n.slotOf fd with
  | some i => ({ n with sockets := update n.sockets i .zero }, 0)
  | none => (n, -9)

def sysNetCloseAll (n : Net) : Net :=
  { n with sockets := fun i =>
      if i < maxSockets ∧ (n.sockets i).inUse then .zero else n.sockets i }

/-! ## Processes -/

inductive ProcessState where
  | alive
  | zombie
  deriving DecidableEq

/-- `process_t`; `children` is the list from `first_child` along `next_sibling`. -/
structure Process where
  state : ProcessState
  exitCode : Int
  parent : Option ℕ
  isWaiting : Bool
  children : List ℕ

/-- The processes and the network.  A process is named by the number of the `alloc_pid` call
    that it got its `pid` from; the `pid` is that number in 32 bits. -/
structure Sys where
  net : Net
  procs : ℕ → Option Process
  nextPid : ℕ
  opener : ℕ → Option ℕ

/-- Change a process. -/
def Sys.modify (s : Sys) (p : ℕ) (f : Process → Process) : Sys :=
  { s with procs := update s.procs p ((s.procs p).map f) }

def sysFork (s : Sys) (p : ℕ) : Sys :=
  let child := s.nextPid
  let s := s.modify p fun proc => { proc with children := child :: proc.children }
  { s with
    procs := update s.procs child (some ⟨.alive, 0, some p, false, []⟩)
    nextPid := child + 1 }

def sysExit (s : Sys) (p : ℕ) (status : Int) : Sys :=
  s.modify p fun proc => { proc with state := .zombie, exitCode := status }

def processDestroy (s : Sys) (p : ℕ) : Sys :=
  { s with
    net := sysNetCloseAll s.net
    procs := update s.procs p none
    opener := fun _ => none }

/-- How one round of the loop of `sys_waitpid` ends. -/
inductive WaitResult where
  | reaped (child : ℕ)
  | echild
  | noneYet
  | blocks
  deriving DecidableEq

/-- The child is one that the caller waits for; `-1` stands for any child. -/
def awaited (targetPid child : ℕ) : Bool := targetPid == 2 ^ 32 - 1 || child % 2 ^ 32 == targetPid

def Sys.isZombie (s : Sys) (child : ℕ) : Bool :=
  ((s.procs child).map Process.state) == some .zombie

/-- One round of the loop of `sys_waitpid`, which goes on when the caller is woken up. -/
def sysWaitpid (s : Sys) (p targetPid : ℕ) (wnohang : Bool) : Sys × WaitResult :=
  let s := s.modify p fun proc => { proc with isWaiting := false }
  match s.procs p with
  | none => (s, .echild)
  | some caller =>
    match caller.children.find? fun c => awaited targetPid c && s.isZombie c with
    | some child =>
      let s := s.modify p fun proc => { proc with children := proc.children.erase child }
      (processDestroy s child, .reaped child)
    | none =>
      if !caller.children.any (awaited targetPid) then (s, .echild)
      else if wnohang then (s, .noneYet)
      else (s.modify p fun proc => { proc with isWaiting := true }, .blocks)

/-! ## Runs -/

/-- A call of a process, or the delivery of a packet. -/
inductive SysCall where
  | socket (p domain type protocol : ℕ)
  | netClose (p : ℕ) (fd : Int)
  | fork (p : ℕ)
  | exit (p : ℕ) (status : Int)
  | waitpid (p targetPid : ℕ) (wnohang : Bool)
  | deliver (ticks : ℕ) (packet : Buf) (len : ℕ)

section
variable (nic : Nic)

def SysCall.run : SysCall → Sys → Sys
  | .socket p domain type protocol, s =>
    { s with
      net := (sysSocket s.net domain type protocol).1
      opener := match (if domain ≠ 1 ∨ type ≠ 1 then none else s.net.freeSlot) with
        | some i => update s.opener i (some p)
        | none => s.opener }
  | .netClose _ fd, s =>
    { s with
      net := (sysNetClose s.net fd).1
      opener := match s.net.slotOf fd with
        | some i => update s.opener i none
        | none => s.opener }
  | .fork p, s => sysFork s p
  | .exit p status, s => sysExit s p status
  | .waitpid p targetPid wnohang, s => (sysWaitpid s p targetPid wnohang).1
  | .deliver ticks packet len, s =>
    { s with net := (netSocketDeliver nic ticks packet len s.net).getD s.net }

/-- The caller is alive; a delivery does not overwrite the stack. -/
def SysCall.Valid (s : Sys) : SysCall → Prop
  | .socket p _ _ _ | .netClose p _ | .fork p | .exit p _ | .waitpid p _ _ =>
    (s.procs p).map Process.state = some .alive
  | .deliver ticks packet len => (netSocketDeliver nic ticks packet len s.net).isSome

end

/-- The opener of a slot is known exactly while a socket is open there. -/
def Sys.Tracked (s : Sys) : Prop :=
  ∀ i, (s.opener i).isSome ↔ i < maxSockets ∧ (s.net.sockets i).inUse

def Sys.NoSockets (s : Sys) : Prop := ∀ i, (s.net.sockets i).inUse = false ∧ s.opener i = none

section
variable {nic : Nic} {s : Sys}

theorem Sys.NoSockets.tracked (h : s.NoSockets) : s.Tracked := fun i => by
  simp [(h i).1, (h i).2]

theorem Socket.deliver_inUse (packet : Buf) (len ethertype ticks : ℕ) (s : Socket) :
    (s.deliver packet len ethertype ticks).inUse = s.inUse := by
  unfold Socket.deliver
  split_ifs <;> rfl

theorem rtl8139SendPacket_sockets (n : Net) (data : List UInt8) :
    (rtl8139SendPacket n data).sockets = n.sockets := by
  unfold rtl8139SendPacket
  split_ifs <;> rfl

theorem arpHandle_sockets (nic : Nic) (arp : ArpPacket) (n : Net) :
    (arpHandle nic arp n).1.sockets = n.sockets := by
  have h : ∀ ip mac, (arpCacheInsert n ip mac).sockets = n.sockets := by
    intro ip mac
    unfold arpCacheInsert
    split <;> rfl
  simp only [arpHandle]
  split_ifs <;> simp [rtl8139SendPacket_sockets, h]

theorem icmpHandle_sockets (h : icmpHandle nic packet n = some n') : n'.sockets = n.sockets := by
  unfold icmpHandle at h
  split_ifs at h
  · obtain ⟨reply, -, rfl⟩ := Option.map_eq_some_iff.1 h
    exact rtl8139SendPacket_sockets n reply
  · rw [Option.some.inj h]

theorem netSocketDeliver_inUse {ticks len : ℕ}
    (h : netSocketDeliver nic ticks packet len n = some n') (i : ℕ) :
    (n'.sockets i).inUse = (n.sockets i).inUse := by
  have harp := congrFun (arpHandle_sockets nic (arpPacket packet) n) i
  simp only [netSocketDeliver] at h
  split_ifs at h
  · rw [Option.some.inj h]
  · rw [← Option.some.inj h, harp]
  · obtain ⟨m, hm, rfl⟩ := Option.map_eq_some_iff.1 h
    show (ite _ _ _ : Socket).inUse = _
    have e : (m.sockets i).inUse = (n.sockets i).inUse := by rw [icmpHandle_sockets hm, harp]
    split_ifs
    · rw [Socket.deliver_inUse, e]
    · exact e

@[simp] theorem Sys.modify_net (s : Sys) (p : ℕ) (f : Process → Process) :
    (s.modify p f).net = s.net := rfl

@[simp] theorem Sys.modify_opener (s : Sys) (p : ℕ) (f : Process → Process) :
    (s.modify p f).opener = s.opener := rfl

theorem sysWaitpid_sockets (s : Sys) (p targetPid : ℕ) (wnohang : Bool) :
    ((sysWaitpid s p targetPid wnohang).1.net = sysNetCloseAll s.net ∧
      (sysWaitpid s p targetPid wnohang).1.opener = fun _ => none) ∨
    (∀ child, (sysWaitpid s p targetPid wnohang).2 ≠ .reaped child) ∧
      (sysWaitpid s p targetPid wnohang).1.net = s.net ∧
      (sysWaitpid s p targetPid wnohang).1.opener = s.opener := by
  simp only [sysWaitpid]
  split
  · exact Or.inr ⟨fun _ => nofun, rfl, rfl⟩
  · split
    · exact Or.inl ⟨rfl, rfl⟩
    · split_ifs <;> exact Or.inr ⟨fun _ => nofun, rfl, rfl⟩

theorem closeAll_not_inUse (n : Net) (hi : i < maxSockets) :
    ((sysNetCloseAll n).sockets i).inUse = false := by
  simp only [sysNetCloseAll]
  split_ifs with hc
  · rfl
  · exact Bool.not_eq_true _ ▸ fun hu => hc ⟨hi, hu⟩

theorem Sys.Tracked.update (h : s.Tracked) (hi : i < maxSockets) {sock : Socket}
    {o : Option ℕ} (ho : o.isSome ↔ sock.inUse) {s' : Sys}
    (hn : s'.net.sockets = update s.net.sockets i sock)
    (ho' : s'.opener = update s.opener i o) : s'.Tracked := by
  intro j
  rw [hn, ho', update_apply, update_apply]
  split_ifs with hj
  · rw [ho, hj]
    exact ⟨fun hu => ⟨hi, hu⟩, And.right⟩
  · exact h j

theorem freeSlot_lt (h : n.freeSlot = some i) : i < maxSockets :=
  List.mem_range.1 (List.mem_of_find?_eq_some h)

theorem slotOf_lt {fd : Int} (h : n.slotOf fd = some i) : i < maxSockets := by
  simp only [Net.slotOf] at h
  split_ifs at h with h1 h2
  cases h
  omega

theorem Sys.Tracked.step (h : s.Tracked) (c : SysCall) : (c.run nic s).Tracked := by
  cases c with
  | socket p domain type protocol =>
    simp only [SysCall.run, sysSocket]
    split_ifs
    · exact h
    · cases hf : s.net.freeSlot with
      | none => exact h
      | some i => exact h.update (freeSlot_lt hf) (by simp) rfl rfl
  | netClose p fd =>
    simp only [SysCall.run, sysNetClose]
    cases hf : s.net.slotOf fd with
    | none => exact h
    | some i => exact h.update (slotOf_lt hf) (by simp [Socket.zero]) rfl rfl
  | fork p => exact h
  | exit p status => exact h
  | waitpid p targetPid wnohang =>
    show (sysWaitpid s p targetPid wnohang).1.Tracked
    intro i
    rcases sysWaitpid_sockets s p targetPid wnohang with ⟨hn, ho⟩ | ⟨-, hn, ho⟩
    · rw [hn, ho]
      exact ⟨nofun, fun ⟨hi, hu⟩ => absurd hu (by simp [closeAll_not_inUse _ hi])⟩
    · rw [hn, ho]
      exact h i
  | deliver ticks packet len =>
    intro i
    show (s.opener i).isSome ↔ _ ∧ ((Option.getD _ s.net).sockets i).inUse
    cases hd : netSocketDeliver nic ticks packet len s.net with
    | none => exact h i
    | some n => rw [Option.getD_some, netSocketDeliver_inUse hd i]; exact h i

/-- **Reaping a process and the sockets of the others**: in every state that is reached, they
    are all kept iff there are none. -/
theorem reap_keeps_sockets_iff {s₀ : Sys} (h₀ : s₀.NoSockets)
    (h : Runs (SysCall.run nic) (SysCall.Valid nic) s₀ s) (p targetPid : ℕ) (wnohang : Bool)
    {child : ℕ} (hw : (sysWaitpid s p targetPid wnohang).2 = .reaped child) :
    (∀ i, (s.opener i).isSome ↔ i < maxSockets ∧ (s.net.sockets i).inUse) ∧
    ((∀ i q, s.opener i = some q → q ≠ child →
      (sysWaitpid s p targetPid wnohang).1.net.sockets i = s.net.sockets i) ↔
      ∀ i q, s.opener i = some q → q = child) := by
  have ht : s.Tracked := h.invariant (fun s c hs _ => hs.step c) h₀.tracked
  refine ⟨ht, fun hk i q hq => ?_, fun hc i q hq hne => absurd (hc i q hq) hne⟩
  by_contra hne
  obtain ⟨hi, hu⟩ := (ht i).1 (by simp [hq])
  rcases sysWaitpid_sockets s p targetPid wnohang with ⟨hn, -⟩ | ⟨hno, -⟩
  · -- the socket is open before and closed afterwards
    have e := hk i q hq hne
    rw [hn] at e
    have hu' := closeAll_not_inUse s.net hi
    rw [e, hu] at hu'
    cases hu'
  · exact hno child hw

/-! ## Two processes -/

/-- Process 1 runs, and nothing has been received. -/
def demoSys : Sys where
  net := ⟨fun _ => ⟨[], [], false⟩, 0, fun _ => .zero, []⟩
  procs := update (fun _ => none) 1 (some ⟨.alive, 0, none, false, []⟩)
  nextPid := 2
  opener _ := none

/-- The calls one after the other. -/
def runAll (nic : Nic) (s : Sys) (cs : List SysCall) : Sys := cs.foldl (fun s c => c.run nic s) s

/-- A child opens a socket and exits. -/
def demoChild : Sys := runAll demoNic demoSys [.fork 1, .socket 2 1 1 0, .exit 2 0]

theorem demoChild_runs : Runs (SysCall.run demoNic) (SysCall.Valid demoNic) demoSys demoChild := by
  have h1 : Runs (SysCall.run demoNic) (SysCall.Valid demoNic) demoSys
      (runAll demoNic demoSys [.fork 1]) := .single ⟨.fork 1, rfl, rfl⟩
  have h2 : Runs (SysCall.run demoNic) (SysCall.Valid demoNic) demoSys
      (runAll demoNic demoSys [.fork 1, .socket 2 1 1 0]) :=
    h1.tail ⟨.socket 2 1 1 0, rfl, rfl⟩
  exact h2.tail ⟨.exit 2 0, rfl, rfl⟩

/-- The child is reaped, and no other process has a socket. -/
theorem reap_keeps_sockets_child : (sysWaitpid demoChild 1 (2 ^ 32 - 1) false).2 = .reaped 2 ∧
    ∀ i q, demoChild.opener i = some q → q ≠ 2 →
      (sysWaitpid demoChild 1 (2 ^ 32 - 1) false).1.net.sockets i = demoChild.net.sockets i := by
  have hw : (sysWaitpid demoChild 1 (2 ^ 32 - 1) false).2 = .reaped 2 := by decide +kernel
  refine ⟨hw, (reap_keeps_sockets_iff (fun _ => ⟨rfl, rfl⟩) demoChild_runs 1 (2 ^ 32 - 1) false
    hw).2.2 fun i q h => ?_⟩
  change update (fun _ => none) 0 (some 2) i = some q at h
  rw [update_apply] at h
  split_ifs at h
  exact (Option.some.inj h).symm

/-- Process 1 opens a socket, and then its child exits. -/
def demoOpener : Sys := runAll demoNic demoSys [.socket 1 1 1 0, .fork 1, .exit 2 0]

/-- Reaping the child closes the socket of process 1. -/
theorem reap_closes_socket_of_parent :
    demoOpener.opener 0 = some 1 ∧ (demoOpener.net.sockets 0).inUse = true ∧
    (sysWaitpid demoOpener 1 (2 ^ 32 - 1) false).2 = .reaped 2 ∧
    ((sysWaitpid demoOpener 1 (2 ^ 32 - 1) false).1.net.sockets 0).inUse = false := by
  decide +kernel

end

end Kabanos
