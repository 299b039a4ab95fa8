/-
  The receive queues of the sockets: `sys_bind`, `sys_recvfrom`, and the socket calls together
  with `net_socket_deliver` as a table of FIFO queues.

  A socket keeps its packets in a ring of four cells with a head, a tail and a count.  For its
  user it is an `Inbox`: a protocol and a list of packets, the oldest first.
-/
import Kabanos.Lib.Ring
import Kabanos.Net.OwnBytes
import Kabanos.Net.Sockets

namespace Kabanos

open Function (update update_apply)

/-! ## The calls -/

/-- `sys_bind`; `addr` is the protocol of the address, if there is one. -/
def sysBind (n : Net) (fd : Int) (addr : Option ℕ) (addrlen : ℕ) : Net × Int :=
  match n.slotOf fd, addr with
  | none, _ => (n, -9)
  | some _, none => (n, -22)
  | some i, some protocol =>
    if addrlen < 10 then (n, -22)
    else
      let s := { n.sockets i with boundProtocol := protocol }
      ({ n with sockets := update n.sockets i s }, 0)

structure SockaddrLl where
  family : ℕ
  protocol : ℕ
  mac : List UInt8
  deriving DecidableEq

/-- The address that `sys_recvfrom` makes of the bytes of a packet; the time of its arrival is
    in the last four bytes of the MAC. -/
def sockaddrOf (data : Buf) (ticks : ℕ) : SockaddrLl where
  family := 1
  protocol := getBe16 data 12
  mac := getBytes data 6 2 ++ be16 (ticks / 65536) ++ be16 ticks

/-- What a call returns and writes to the caller's memory. -/
structure SocketReply where
  ret : Int
  bytes : List UInt8
  addr : Option SockaddrLl
  deriving DecidableEq

/-- A reply that is a number only. -/
def SocketReply.code (ret : Int) : SocketReply := ⟨ret, [], none⟩

/-- `sys_recvfrom`; `buf` tells whether there is a buffer, and `addrlen` is the length given for
    the address, if it is asked for.  A call on an empty queue waits, which is `none`. -/
def sysRecvfrom (n : Net) (fd : Int) (buf : Bool) (len : ℕ) (addrlen : Option ℕ) :
    Option (Net × SocketReply) :=
  match n.slotOf fd with
  | none => some (n, .code (-9))
  | some i =>
    if !buf ∨ len = 0 then some (n, .code (-22))
    else
      let s := n.sockets i
      if s.rxCount = 0 then none
      else
        let slot := s.rxQueue s.rxHead
        let copy := if slot.len < len then slot.len else len
        let s' := { s with rxHead := (s.rxHead + 1) % 4, rxCount := s.rxCount - 1 }
        some ({ n with sockets := update n.sockets i s' },
          { ret := copy
            bytes := getBytes slot.data 0 copy
            addr := if addrlen.any (10 ≤ ·) then some (sockaddrOf slot.data slot.arrivedTicks)
              else none })

/-- The calls on sockets, and the frames. -/
inductive SocketCall where
  | socket (domain type protocol : ℕ)
  | bind (fd : Int) (addr : Option ℕ) (addrlen : ℕ)
  | netClose (fd : Int)
  | deliver (ticks : ℕ) (packet : Buf) (len : ℕ)
  | recvfrom (fd : Int) (buf : Bool) (len : ℕ) (addrlen : Option ℕ)

def SocketCall.exec (nic : Nic) : SocketCall → Net → Option (Net × SocketReply)
  | .socket domain type protocol, n =>
    some ((sysSocket n domain type protocol).1, .code (sysSocket n domain type protocol).2)
  | .bind fd addr addrlen, n =>
    some ((sysBind n fd addr addrlen).1, .code (sysBind n fd addr addrlen).2)
  | .netClose fd, n => some ((sysNetClose n fd).1, .code (sysNetClose n fd).2)
  | .deliver ticks packet len, n =>
    (netSocketDeliver nic ticks packet len n).map fun n => (n, .code 0)
  | .recvfrom fd buf len addrlen, n => sysRecvfrom n fd buf len addrlen

/-- Calls one after the other, with what they return. -/
def execAll (nic : Nic) : List SocketCall → Net → Option (Net × List SocketReply)
  | [], n => some (n, [])
  | c :: cs, n => do
    let (n, r) ← c.exec nic n
    let (n, rs) ← execAll nic cs n
    return (n, r :: rs)

/-! ## Inboxes -/

/-- A packet in a queue, and when it arrived. -/
structure Packet where
  bytes : List UInt8
  ticks : ℕ

/-- What a socket is for its user. -/
structure Inbox where
  protocol : ℕ
  queue : List Packet

/-- The sockets that are open. -/
abbrev Inboxes := ℕ → Option Inbox

/-- A frame is appended, cut to 2048 bytes, if the protocol is right and there is room. -/
def Inbox.arrive (frame : List UInt8) (ethertype ticks : ℕ) (b : Inbox) : Inbox :=
  if (b.protocol = 0 ∨ b.protocol = ethertype) ∧ b.queue.length < 4 then
    { b with queue := b.queue ++ [⟨frame.take 2048, ticks⟩] }
  else b

/-- The open socket of a descriptor. -/
def Inboxes.find (t : Inboxes) (fd : Int) : Option (ℕ × Inbox) :=
  if fd < 64 ∨ 80 ≤ fd then none else (t (fd - 64).toNat).map fun b => ((fd - 64).toNat, b)

/-- The first bytes of the oldest packet, and its address if there is room for it. -/
def Packet.received (p : Packet) (len : ℕ) (addrlen : Option ℕ) : SocketReply where
  ret := min len p.bytes.length
  bytes := p.bytes.take len
  addr := if addrlen.any (10 ≤ ·) then some (sockaddrOf (fun k => p.bytes.getD k 0) p.ticks)
    else none

/-- What the calls are meant to do. -/
def SocketCall.spec : SocketCall → Inboxes → Inboxes × SocketReply
  | .socket domain type protocol, t =>
    if domain ≠ 1 ∨ type ≠ 1 then (t, .code (-124))
    else
      match (List.range maxSockets).find? fun i => (t i).isNone with
      | some i => (update t i (some ⟨protocol % 2 ^ 16, []⟩), .code (64 + i))
      | none => (t, .code (-23))
  | .bind fd addr addrlen, t =>
    match t.find fd, addr with
    | none, _ => (t, .code (-9))
    | some _, none => (t, .code (-22))
    | some (i, b), some protocol =>
      if addrlen < 10 then (t, .code (-22))
      else (update t i (some { b with protocol := protocol }), .code 0)
  | .netClose fd, t =>
    match t.find fd with
    | none => (t, .code (-9))
    | some (i, _) => (update t i none, .code 0)
  | .deliver ticks packet len, t =>
    (fun i => (t i).map (Inbox.arrive (getBytes packet 0 len) (getBe16 packet 12) ticks), .code 0)
  | .recvfrom fd buf len addrlen, t =>
    match t.find fd with
    | none => (t, .code (-9))
    | some (i, b) =>
      if !buf ∨ len = 0 then (t, .code (-22))
      else
        match b.queue with
        | [] => (t, .code (-1))
        | p :: rest =>
          (update t i (some { b with queue := rest }), p.received len addrlen)

/-- All calls of a list -/
def specAll : List SocketCall → Inboxes → Inboxes × List SocketReply
  | [], t => (t, [])
  | c :: cs, t => ((specAll cs (c.spec t).1).1, (c.spec t).2 :: (specAll cs (c.spec t).1).2)

/-- The frame reaches the loop over the sockets; the queue is not empty. -/
def SocketCall.Valid (nic : Nic) (n : Net) : SocketCall → Prop
  | .deliver _ packet len => 14 ≤ len ∧ (arpHandle nic (arpPacket packet) n).2 = true ∧
      (icmpHandle nic packet (arpHandle nic (arpPacket packet) n).1).isSome
  | .recvfrom fd buf len _ => ∀ i, n.slotOf fd = some i → buf = true → len ≠ 0 →
      (n.sockets i).rxCount ≠ 0
  | _ => True

/-- Every call of the list is valid where it is made. -/
def AllValid (nic : Nic) : List SocketCall → Net → Prop
  | [], _ => True
  | c :: cs, n => c.Valid nic n ∧ ∀ n' r, c.exec nic n = some (n', r) → AllValid nic cs n'

/-! ## Sockets as inboxes -/

/-- A slot with a frame in it. -/
def RxPacket.fill (slot : RxPacket) (packet : Buf) (len ticks : ℕ) : RxPacket where
  data := memcpy slot.data 0 packet 0 (if len < 2048 then len else 2048)
  len := if len < 2048 then len else 2048
  arrivedTicks := ticks

def RxPacket.packet (p : RxPacket) : Packet := ⟨getBytes p.data 0 p.len, p.arrivedTicks⟩

/-- The packets of a socket, the oldest first. -/
def Socket.packets (s : Socket) : List RxPacket := ring 4 s.rxQueue s.rxHead s.rxCount

def Socket.inbox (s : Socket) : Inbox := ⟨s.boundProtocol, s.packets.map RxPacket.packet⟩

def Socket.view (s : Socket) : Option Inbox := if s.inUse then some s.inbox else none

def Net.inboxes (n : Net) : Inboxes := fun i => if i < maxSockets then (n.sockets i).view else none

/-- Head, tail and count fit together, and no packet is shorter than an Ethernet header. -/
structure Socket.Sound (s : Socket) : Prop where
  head_lt : s.rxHead < 4
  count_le : s.rxCount ≤ 4
  tail : s.rxTail = (s.rxHead + s.rxCount) % 4
  framed : ∀ p ∈ s.packets, 14 ≤ p.len

section
variable {nic : Nic} {n n' : Net} {s : Socket} {i len ethertype ticks : ℕ} {packet : Buf}
  {fd : Int}

theorem Socket.Sound.zero (used : Bool) (protocol : ℕ) :
    Socket.Sound { Socket.zero with inUse := used, boundProtocol := protocol } :=
  ⟨show 0 < 4 by decide, show 0 ≤ 4 by decide, rfl, fun _ hp => by cases hp⟩

theorem take_getBytes (b : Buf) (off n k : ℕ) :
    (getBytes b off n).take k = getBytes b off (min k n) := by
  rw [getBytes, getBytes, ← List.map_take, List.take_range]

theorem getD_getBytes {b : Buf} {off n k : ℕ} (h : k < n) :
    (getBytes b off n).getD k 0 = b (off + k) := by
  simp [getBytes, List.getD, h]

theorem RxPacket.packet_fill (slot : RxPacket) (packet : Buf) (len ticks : ℕ) :
    (slot.fill packet len ticks).packet = ⟨(getBytes packet 0 len).take 2048, ticks⟩ := by
  have e : (if len < 2048 then len else 2048) = min 2048 len := by split_ifs <;> omega
  rw [fill, e, take_getBytes]
  exact congrArg (Packet.mk · ticks)
    ((agree_memcpy slot.data packet (min 2048 len)).getBytes (Nat.zero_add _).le)

theorem sockaddrOf_packet {p : RxPacket} (h : 14 ≤ p.len) :
    sockaddrOf (fun k => p.packet.bytes.getD k 0) p.packet.ticks
      = sockaddrOf p.data p.arrivedTicks := by
  have ha : Agree 14 p.data fun k => p.packet.bytes.getD k 0 := fun k hk => by
    show (getBytes p.data 0 p.len).getD k 0 = _
    rw [getD_getBytes (by omega), Nat.zero_add]
  rw [sockaddrOf, ha.getBe16 (by omega), ha.getBytes (by omega)]
  rfl

theorem received_packet {p : RxPacket} (h : 14 ≤ p.len) (len : ℕ) (addrlen : Option ℕ) :
    p.packet.received len addrlen =
      { ret := (if p.len < len then p.len else len : ℕ)
        bytes := getBytes p.data 0 (if p.len < len then p.len else len)
        addr := if addrlen.any (10 ≤ ·) then some (sockaddrOf p.data p.arrivedTicks)
          else none } := by
  have hl : p.packet.bytes.length = p.len := getBytes_length _ _ _
  have e : (if p.len < len then p.len else len) = min len p.len := by split_ifs <;> omega
  rw [Packet.received, sockaddrOf_packet h, hl, e, RxPacket.packet, take_getBytes,
    Nat.cast_min]

theorem Socket.deliver_cases (s : Socket) (packet : Buf) (len ethertype ticks : ℕ) :
    s.deliver packet len ethertype ticks = s ∧
      (s.inUse = false ∨ s.inUse ∧
        ¬ ((s.boundProtocol = 0 ∨ s.boundProtocol = ethertype) ∧ s.rxCount < 4)) ∨
    s.inUse ∧ ((s.boundProtocol = 0 ∨ s.boundProtocol = ethertype) ∧ s.rxCount < 4) ∧
      s.deliver packet len ethertype ticks =
        { s with
          rxQueue := update s.rxQueue s.rxTail ((s.rxQueue s.rxTail).fill packet len ticks)
          rxTail := (s.rxTail + 1) % 4
          rxCount := s.rxCount + 1 } := by
  rw [Socket.deliver]
  cases hu : s.inUse with
  | false => exact .inl ⟨if_pos rfl, .inl rfl⟩
  | true =>
    rw [if_neg (by decide)]
    by_cases hp : s.boundProtocol ≠ 0 ∧ s.boundProtocol ≠ ethertype
    · exact .inl ⟨if_pos hp, .inr ⟨rfl, fun h => h.1.elim hp.1 hp.2⟩⟩
    by_cases hc : 4 ≤ s.rxCount
    · exact .inl ⟨by rw [if_neg hp, if_pos hc], .inr ⟨rfl, fun h => absurd h.2 (by omega)⟩⟩
    · refine .inr ⟨rfl, ⟨by tauto, by omega⟩, ?_⟩
      rw [if_neg hp, if_neg hc, ← hu]
      rfl

/-- **A frame** at one socket -/
theorem Socket.Sound.deliver (h : s.Sound) (packet : Buf) (hlen : 14 ≤ len) (ethertype ticks : ℕ) :
    (s.deliver packet len ethertype ticks).Sound ∧
      (s.deliver packet len ethertype ticks).view =
        s.view.map (Inbox.arrive (getBytes packet 0 len) ethertype ticks) := by
  have hq : s.inbox.queue.length = s.rxCount := by simp [inbox, packets]
  rcases s.deliver_cases packet len ethertype ticks with ⟨e, hn⟩ | ⟨hu, hc, e⟩
  · rw [e]
    refine ⟨h, ?_⟩
    rcases hn with hu | ⟨hu, hc⟩
    · simp [view, hu]
    · rw [view, if_pos hu, Option.map_some, Inbox.arrive, if_neg]
      rw [hq]
      exact hc
  rw [e]
  have hpush : ∀ x, ring 4 (update s.rxQueue s.rxTail x) s.rxHead (s.rxCount + 1)
      = s.packets ++ [x] := fun x => by
    rw [h.tail]
    exact ring_push hc.2 x
  refine ⟨⟨h.head_lt, Nat.succ_le_of_lt hc.2, ?_, fun p hm => ?_⟩, ?_⟩
  · show (s.rxTail + 1) % 4 = (s.rxHead + (s.rxCount + 1)) % 4
    have := h.tail
    omega
  · rw [Socket.packets, hpush] at hm
    rcases List.mem_append.1 hm with hm | hm
    · exact h.framed p hm
    · rw [List.mem_singleton.1 hm]
      show 14 ≤ if len < 2048 then len else 2048
      split_ifs <;> omega
  · rw [view, view, if_pos hu, if_pos hu, inbox, Socket.packets, hpush, List.map_append,
      List.map_singleton, RxPacket.packet_fill, Option.map_some, Inbox.arrive, if_pos]
    · rfl
    · rw [hq]
      exact hc

/-- **The oldest packet** is the one at the head. -/
theorem Socket.Sound.pop (h : s.Sound) (hc : s.rxCount ≠ 0) :
    s.packets = s.rxQueue s.rxHead :: Socket.packets
      { s with rxHead := (s.rxHead + 1) % 4, rxCount := s.rxCount - 1 } ∧
    Socket.Sound { s with rxHead := (s.rxHead + 1) % 4, rxCount := s.rxCount - 1 } := by
  obtain ⟨count, e⟩ := Nat.exists_eq_succ_of_ne_zero hc
  have hp : s.packets = s.rxQueue s.rxHead :: Socket.packets
      { s with rxHead := (s.rxHead + 1) % 4, rxCount := s.rxCount - 1 } := by
    show ring 4 s.rxQueue s.rxHead s.rxCount = _ :: ring 4 s.rxQueue _ (s.rxCount - 1)
    rw [e, Nat.succ_sub_one]
    exact ring_pop h.head_lt
  refine ⟨hp, Nat.mod_lt _ (by decide), ?_, ?_, fun p hm => h.framed p ?_⟩
  · show s.rxCount - 1 ≤ 4
    have := h.count_le
    omega
  · show s.rxTail = ((s.rxHead + 1) % 4 + (s.rxCount - 1)) % 4
    have := h.tail
    omega
  · rw [hp]
    exact List.mem_cons_of_mem _ hm

theorem Net.inboxes_update (hi : i < maxSockets) (n : Net) (s : Socket) :
    Net.inboxes { n with sockets := update n.sockets i s }
      = update n.inboxes i s.view := by
  funext j
  simp only [inboxes, update_apply]
  split_ifs with h1 h2 h2
  · rfl
  · rfl
  · exact absurd (h2 ▸ hi) h1
  · rfl

theorem Net.find_inboxes (n : Net) (fd : Int) :
    n.inboxes.find fd = (n.slotOf fd).map fun i => (i, (n.sockets i).inbox) := by
  rw [Inboxes.find, Net.slotOf]
  by_cases hr : fd < 64 ∨ 80 ≤ fd
  · rw [if_pos hr, if_pos (by simp only [socketFdBase, maxSockets]; omega)]
    rfl
  · have hlt : (fd - 64).toNat < maxSockets := by
      simp only [maxSockets]
      omega
    rw [if_neg hr, if_neg (by simp only [socketFdBase, maxSockets]; omega), Net.inboxes, if_pos hlt,
      Socket.view]
    cases (n.sockets (fd - 64).toNat).inUse <;> simp [socketFdBase]

theorem Net.freeSlot_inboxes (n : Net) :
    ((List.range maxSockets).find? fun i => (n.inboxes i).isNone) = n.freeSlot := by
  refine List.find?_congr fun i hi => ?_
  rw [inboxes, if_pos (List.mem_range.1 hi), Socket.view]
  cases (n.sockets i).inUse <;> rfl

/-- All sockets are sound. -/
def Net.Sound (n : Net) : Prop := ∀ i, (n.sockets i).Sound

theorem Net.Sound.update (h : n.Sound) (hs : s.Sound) (i : ℕ) :
    Net.Sound { n with sockets := update n.sockets i s } := by
  intro j
  show (Function.update n.sockets i s j).Sound
  rw [update_apply]
  split_ifs
  · exact hs
  · exact h j

theorem slotOf_inUse (h : n.slotOf fd = some i) : (n.sockets i).inUse := by
  simp only [Net.slotOf] at h
  split_ifs at h with h1 h2
  cases h
  simpa using h2

theorem netSocketDeliver_reaches (h : (SocketCall.deliver ticks packet len).Valid nic n) :
    ∃ n', netSocketDeliver nic ticks packet len n = some n' ∧ n'.sockets = fun i =>
      if i < maxSockets then (n.sockets i).deliver packet len (getBe16 packet 12) ticks
      else n.sockets i := by
  obtain ⟨hlen, hgo, hs⟩ := h
  obtain ⟨m, hm⟩ := Option.isSome_iff_exists.1 hs
  have e : m.sockets = n.sockets := by rw [icmpHandle_sockets hm, arpHandle_sockets]
  refine ⟨⟨m.arpCache, m.arpCacheNext, fun i => if i < maxSockets then
    (m.sockets i).deliver packet len (getBe16 packet 12) ticks else m.sockets i, m.sent⟩, ?_, ?_⟩
  · simp only [netSocketDeliver]
    rw [if_neg (by omega), hgo, hm]
    rfl
  · rw [e]

/-- **One call** does to the inboxes what it is meant to do. -/
theorem SocketCall.exec_spec (h : n.Sound) (c : SocketCall) (hc : c.Valid nic n) :
    ∃ n', c.exec nic n = some (n', (c.spec n.inboxes).2) ∧
      n'.inboxes = (c.spec n.inboxes).1 ∧ n'.Sound := by
  cases c with
  | socket domain type protocol =>
    simp only [exec, spec, sysSocket, Net.freeSlot_inboxes]
    split_ifs with hd
    · exact ⟨n, rfl, rfl, h⟩
    · cases hf : n.freeSlot with
      | none => exact ⟨n, rfl, rfl, h⟩
      | some i =>
        exact ⟨_, rfl, Net.inboxes_update (freeSlot_lt hf) n _, h.update (.zero true _) i⟩
  | bind fd addr addrlen =>
    simp only [exec, spec, sysBind, Net.find_inboxes]
    cases hs : n.slotOf fd with
    | none => exact ⟨n, rfl, rfl, h⟩
    | some i =>
      cases addr with
      | none => exact ⟨n, rfl, rfl, h⟩
      | some protocol =>
        simp only [Option.map_some]
        split_ifs
        · exact ⟨n, rfl, rfl, h⟩
        · have hi : Socket.Sound { n.sockets i with boundProtocol := protocol } :=
            ⟨(h i).head_lt, (h i).count_le, (h i).tail, (h i).framed⟩
          refine ⟨_, rfl, (Net.inboxes_update (slotOf_lt hs) n _).trans ?_, h.update hi i⟩
          rw [Socket.view, if_pos (slotOf_inUse hs)]
          rfl
  | netClose fd =>
    simp only [exec, spec, sysNetClose, Net.find_inboxes]
    cases hs : n.slotOf fd with
    | none => exact ⟨n, rfl, rfl, h⟩
    | some i => exact ⟨_, rfl, Net.inboxes_update (slotOf_lt hs) n _, h.update (.zero false 0) i⟩
  | deliver ticks packet len =>
    obtain ⟨n', hd, hs⟩ := netSocketDeliver_reaches hc
    have hone := fun i => (h i).deliver packet hc.1 (getBe16 packet 12) ticks
    refine ⟨n', by rw [exec, hd]; rfl, ?_, fun i => ?_⟩
    · funext i
      simp only [Net.inboxes, hs, spec]
      split_ifs
      · exact (hone i).2
      · rfl
    · rw [hs]
      dsimp only
      split_ifs
      · exact (hone i).1
      · exact h i
  | recvfrom fd buf len addrlen =>
    simp only [exec, spec, sysRecvfrom, Net.find_inboxes]
    cases hs : n.slotOf fd with
    | none => exact ⟨n, rfl, rfl, h⟩
    | some i =>
      simp only [Option.map_some]
      by_cases hb : (!buf) ∨ len = 0
      · rw [if_pos hb, if_pos hb]
        exact ⟨n, rfl, rfl, h⟩
      have hz : (n.sockets i).rxCount ≠ 0 :=
        hc i hs (by simpa using (not_or.1 hb).1) (not_or.1 hb).2
      obtain ⟨hp, hsound⟩ := (h i).pop hz
      have hq : (n.sockets i).inbox.queue = RxPacket.packet _ :: _ := congrArg (List.map _) hp
      have hlen := (h i).framed _ (hp ▸ List.mem_cons_self)
      rw [if_neg hb, if_neg hb, if_neg hz, hq]
      refine ⟨_, congrArg some (congrArg (Prod.mk _) ?_),
        (Net.inboxes_update (slotOf_lt hs) n _).trans ?_, h.update hsound i⟩
      · exact (received_packet hlen len addrlen).symm
      · rw [Socket.view, if_pos (slotOf_inUse hs)]
        rfl

theorem execAll_spec (h : n.Sound) {cs : List SocketCall} (hcs : AllValid nic cs n) :
    ∃ n', execAll nic cs n = some (n', (specAll cs n.inboxes).2) ∧
      n'.inboxes = (specAll cs n.inboxes).1 ∧ n'.Sound := by
  induction cs generalizing n with
  | nil => exact ⟨n, rfl, rfl, h⟩
  | cons c cs ih =>
    obtain ⟨n1, he, hv, h1⟩ := c.exec_spec h hcs.1
    obtain ⟨n2, he2, hv2, h2⟩ := ih h1 (hcs.2 _ _ he)
    rw [hv] at he2 hv2
    refine ⟨n2, ?_, hv2, h2⟩
    simp only [execAll, he, he2, Option.bind_eq_bind, Option.bind_some]
    rfl

/-- **The sockets are FIFO queues**, in every run of the socket calls and of frames that reach
    the sockets: what the calls return, and what the sockets are for their users, is what the
    calls on inboxes say, and no queue has more than four packets. -/
theorem socket_queues_fifo {n₀ : Net} (h₀ : ∀ i, n₀.sockets i = .zero) {cs : List SocketCall}
    (hcs : AllValid nic cs n₀) :
    ∃ n, execAll nic cs n₀ = some (n, (specAll cs fun _ => none).2) ∧
      n.inboxes = (specAll cs fun _ => none).1 ∧
      ∀ i b, n.inboxes i = some b → b.queue.length ≤ 4 := by
  have hs : n₀.Sound := fun i => by
    rw [h₀]
    exact .zero false 0
  have hv : n₀.inboxes = fun _ => none := by
    funext i
    simp [Net.inboxes, h₀, Socket.view, Socket.zero]
  obtain ⟨n, he, hn, h⟩ := execAll_spec hs hcs
  rw [hv] at he hn
  refine ⟨n, he, hn, fun i b hb => ?_⟩
  simp only [Net.inboxes, Socket.view] at hb
  split_ifs at hb
  rw [← Option.some.inj hb]
  simpa [Socket.inbox, Socket.packets] using (h i).count_le

/-- A frame of 20 bytes with the type `0x9999`, and the byte `x` behind its header. -/
def demoFrame (x : UInt8) : Buf :=
  fun k => if k = 12 ∨ k = 13 then 0x99 else if k = 14 then x else 0

theorem demoFrame_valid (x : UInt8) (n : Net) :
    (SocketCall.deliver 7 (demoFrame x) 20).Valid demoNic n := by
  have ha : arpHandle demoNic (arpPacket (demoFrame x)) n = (n, true) := by
    have h1 : checkArpIsForUs demoNic (arpPacket (demoFrame x)) = false := rfl
    have h2 : (arpPacket (demoFrame x)).operation = 0 := rfl
    rw [arpHandle, h1, if_neg Bool.false_ne_true, h2, if_neg (by decide)]
  have hi : icmpIsPingRequest demoNic (demoFrame x) = false := rfl
  refine ⟨by decide, by rw [ha], ?_⟩
  rw [ha, icmpHandle, hi]
  rfl

theorem recvfrom_valid {k len : ℕ}
    (h : (n.inboxes 0).map (fun b => b.queue.length) = some (k + 1)) :
    (SocketCall.recvfrom 64 true len none).Valid nic n := by
  intro i hi _ _ hz
  have h0 : i = 0 := by
    rw [Net.slotOf] at hi
    split_ifs at hi
    exact (Option.some.inj hi).symm
  subst h0
  rw [Net.inboxes, Socket.view, if_pos (slotOf_inUse hi)] at h
  simp [Socket.inbox, Socket.packets, hz] at h

theorem allValid_of_take (h : n.Sound) {cs : List SocketCall}
    (hcs : ∀ k (hk : k < cs.length), ∀ n' : Net, n'.Sound →
      n'.inboxes = (specAll (cs.take k) n.inboxes).1 → (cs.get ⟨k, hk⟩).Valid nic n') :
    AllValid nic cs n := by
  induction cs generalizing n with
  | nil => trivial
  | cons c cs ih =>
    have hc := hcs 0 (Nat.zero_lt_succ _) n h rfl
    obtain ⟨n1, he, hv, h1⟩ := c.exec_spec h hc
    refine ⟨hc, fun n' r hn => ?_⟩
    rw [he] at hn
    cases hn
    refine ih h1 fun k hk n2 h2 hn2 => hcs (k + 1) (Nat.succ_lt_succ hk) n2 h2 ?_
    rw [hn2, hv]
    rfl

/-- Open a socket, get a frame, and then five times get a frame and receive one. -/
def demoTurn : List SocketCall :=
  [.socket 1 1 0, .deliver 7 (demoFrame 0) 20] ++ (List.range 5).flatMap fun i =>
    [.deliver 7 (demoFrame (.ofNat (i + 1))) 20, .recvfrom 64 true 15 none]

theorem demoTurn_valid : AllValid demoNic demoTurn demoSys.net := by
  have hs : demoSys.net.Sound := fun _ => .zero false 0
  refine allValid_of_take hs fun k hk n' _ hn => ?_
  have hk : k < 12 := hk
  interval_cases k
  · trivial
  all_goals first
    | exact demoFrame_valid _ _
    | exact recvfrom_valid (k := 1) (by rw [hn]; decide +kernel)

/-- The frames come in order, while the queue goes around its four slots. -/
theorem socket_queues_fifo_turn : ∃ n replies,
    execAll demoNic demoTurn demoSys.net = some (n, replies) ∧
      replies.filterMap (fun r => r.bytes[14]?) = [0, 1, 2, 3, 4] ∧
      (n.inboxes 0).map (fun b => b.queue.length) = some 1 := by
  obtain ⟨n, he, hn, -⟩ := socket_queues_fifo
    (show ∀ i, demoSys.net.sockets i = .zero from fun _ => rfl) demoTurn_valid
  refine ⟨n, _, he, by decide +kernel, ?_⟩
  rw [hn]
  decide +kernel

/-- Open a socket, get a frame, and receive it. -/
def demoReceive (len : ℕ) : List SocketCall :=
  [.socket 1 1 0, .deliver 7 (demoFrame 0) 20, .recvfrom 64 true len none]

theorem demoReceive_valid (len : ℕ) : AllValid demoNic (demoReceive len) demoSys.net := by
  have hs : demoSys.net.Sound := fun _ => .zero false 0
  refine allValid_of_take hs fun k hk n' _ hn => ?_
  have hk : k < 3 := hk
  interval_cases k
  · trivial
  · exact demoFrame_valid _ _
  · have hone : ((specAll [.socket 1 1 0, .deliver 7 (demoFrame 0) 20] demoSys.net.inboxes).1 0).map
        (fun b => b.queue.length) = some (0 + 1) := by decide +kernel
    exact recvfrom_valid (by rw [hn]; exact hone)

/-- A call for no bytes fails, and the packet stays. -/
theorem recvfrom_no_bytes : ∃ n, execAll demoNic (demoReceive 0) demoSys.net =
    some (n, [.code 64, .code 0, .code (-22)]) ∧
    (n.inboxes 0).map (fun b => b.queue.length) = some 1 := by
  have hs : demoSys.net.Sound := fun _ => .zero false 0
  obtain ⟨n, he, hn, -⟩ := execAll_spec hs (demoReceive_valid 0)
  refine ⟨n, he, ?_⟩
  rw [hn]
  decide

end

end Kabanos
