/-
  Copies between address spaces: `vmspace_copy_from` and `vmspace_copy_to`.

  Both sides of the copy are memory.  The kernel's side is read or written through the
  page tables of the current address space, and so is the window onto the frame of the
  user's side.  The address spaces are those of processes or the kernel's own.
-/
import Kabanos.Lib.Transfer
import Kabanos.Mm.CopyTo

namespace Kabanos

variable {j t i : ℕ} {m₁ m₂ : Mm}

/-- `memcpy` in address space `vm`: each byte goes through the page tables. -/
def memcpyVirt (vm dst src : ℕ) : ℕ → Mm → Mm
  | 0, m => m
  | n + 1, m =>
    let m := memcpyVirt vm dst src n m
    { m with
      mem := Function.update m.mem (halVmVirtToPhys m vm ((dst + n) % 2 ^ 32))
        (m.mem (halVmVirtToPhys m vm ((src + n) % 2 ^ 32))) }

inductive CopyWay
  | toUser
  | fromUser

/-- The side that is written. -/
def CopyWay.dst : CopyWay → ℕ → ℕ → ℕ
  | .toUser, user, _ => user
  | .fromUser, _, kernel => kernel

/-- The side that is read. -/
def CopyWay.src : CopyWay → ℕ → ℕ → ℕ
  | .toUser, _, kernel => kernel
  | .fromUser, user, _ => user

/-- One page of a copy: the frame is mapped at `KMAPPING_BASE`, the bytes are copied, and it
    is unmapped again. -/
def copyWindow (way : CopyWay) (curr : ℕ) (m : Mm) (phys offset kernel toCopy : ℕ) : Mm :=
  let m := (halVmMap m curr kmappingBase phys 0x2).1
  let window := kmappingBase + offset
  let m := memcpyVirt curr (way.dst window kernel) (way.src window kernel) toCopy m
  halVmUnmap m curr kmappingBase

/-- The loop of `vmspace_copy_from` and `vmspace_copy_to`: `user` is the address in `vm` and
    `kernel` the one in the current address space. -/
def copyVirtLoop (way : CopyWay) (curr vm : ℕ) (m : Mm) (user kernel remaining : ℕ) : Mm × Bool :=
  if _ : remaining = 0 then (m, true)
  else
    let offset := user % 4096
    let toCopy := min (4096 - offset) remaining
    let phys := halVmVirtToPhys m vm (alignDown user)
    if phys = 0 then (m, false)
    else
      copyVirtLoop way curr vm (copyWindow way curr m phys offset kernel toCopy)
        ((user + toCopy) % 2 ^ 32) ((kernel + toCopy) % 2 ^ 32) (remaining - toCopy)
termination_by remaining
decreasing_by
  have : user % 4096 < 4096 := Nat.mod_lt _ (by norm_num)
  omega

/-- `vmspace_copy_from`; `false` is `-EFAULT`. -/
def vmspaceCopyFrom (m : Mm) (curr srcVm dst src size : ℕ) : Mm × Bool :=
  copyVirtLoop .fromUser curr srcVm m src dst size

/-- `vmspace_copy_to` with its source in memory; `vmspaceCopyTo` has it as a buffer apart. -/
def vmspaceCopyToVirt (m : Mm) (curr dstVm dst src size : ℕ) : Mm × Bool :=
  copyVirtLoop .toUser curr dstVm m dst src size

def uaccessCopyFromUser (m : Mm) (curr kernelDst userSrc size : ℕ) : Mm × Bool :=
  vmspaceCopyFrom m curr curr kernelDst userSrc size

def uaccessCopyToUser (m : Mm) (curr userDst kernelSrc size : ℕ) : Mm × Bool :=
  vmspaceCopyToVirt m curr curr userDst kernelSrc size

/-- The address of the window's page table entry. -/
def windowSlot (m : Mm) (k : ℕ) : ℕ :=
  pageOf (word m k (windowPage / 1024)) + 4 * (windowPage % 1024)

/-- The entry of the window's page is zero, as `hal_vm_unmap` leaves it. -/
def WindowFree (m : Mm) (k : ℕ) : Prop :=
  word m (pageOf (word m k (windowPage / 1024))) (windowPage % 1024) = 0

/-- The byte at `a` is not one of the window's page table entry, which changes while the window is
    open. -/
def OffWindowSlot (m : Mm) (k a : ℕ) : Prop := ¬ (windowSlot m k ≤ a ∧ a < windowSlot m k + 4)

/-- The arguments of a copy: consistent address spaces with the window free, ranges that do
    not wrap, a kernel buffer that is mapped and outside the frames of the user's range, no page
    table where the copy writes, and not the window's entry where it reads. -/
structure CopyArgs (way : CopyWay) (m : Mm) (k : ℕ) (V : Finset ℕ) (curr vm user kernel size : ℕ) :
    Prop where
  dirs : Dirs m k V
  current : curr ∈ dirsOf k V
  space : vm ∈ dirsOf k V
  free : WindowFree m k
  userAddr : user < 2 ^ 32
  kernelAddr : kernel < 2 ^ 32
  userEnd : user + size ≤ 2 ^ 32
  kernelEnd : kernel + size ≤ 2 ^ 32
  buffer : ∀ i < size, entry m curr ((kernel + i) / 4096) ≠ 0
  written : ∀ i < size, ¬ IsTable m (dirsOf k V) (procHome k)
    (way.dst (frameAt m vm (user + i)) (frameAt m curr (kernel + i)))
  read : ∀ i < size, OffWindowSlot m k
    (way.src (halVmVirtToPhys m vm (user + i)) (halVmVirtToPhys m curr (kernel + i)))
  apart : ∀ i < size, ∀ j < size, entry m vm ((user + i) / 4096) ≠ 0 →
    frameAt m vm (user + i) ≠ frameAt m curr (kernel + j)

section
variable {m m' : Mm} {k : ℕ} {V : Finset ℕ} {curr vm q f off n user kernel size dst src va d : ℕ}
  {way : CopyWay}

/-! ## Translations -/

theorem SameMaps.virtToPhys (h : SameMaps k V m m') (hq : q ∈ dirsOf k V) (hva : va < 2 ^ 32) :
    halVmVirtToPhys m' q va = halVmVirtToPhys m q va := by
  rw [virtToPhys_eq, virtToPhys_eq, h.entry q hq _ (by omega)]

theorem SameMaps.frameAt (h : SameMaps k V m m') (hq : q ∈ dirsOf k V) (hva : va < 2 ^ 32) :
    frameAt m' q va = frameAt m q va := by
  rw [Kabanos.frameAt, Kabanos.frameAt, h.entry q hq _ (by omega)]

theorem frameAt_aligned (m : Mm) (q va : ℕ) : frameAt m q va % 4096 = 0 := pageOf_aligned _

theorem frameAt_lt (m : Mm) (q va : ℕ) : frameAt m q va < 2 ^ 32 := pageOf_lt (entry_lt ..)

theorem frameAt_ne_zero (h : frameAt m q va ≠ 0) : entry m q (va / 4096) ≠ 0 := by
  intro e
  rw [frameAt, e] at h
  exact h rfl

/-- The state after the first `n` bytes between the given places. -/
def movedBytes (m : Mm) (src dst : ℕ → ℕ) (n : ℕ) : Mm := { m with mem := transfer src dst m.mem n }

/-- **`memcpy` to pages that hold no tables** moves the bytes and keeps the translations. -/
theorem memcpyVirt_eq (h : Dirs m k V) (hq : q ∈ dirsOf k V) (hd : dst + n ≤ 2 ^ 32)
    (hs : src + n ≤ 2 ^ 32) (hmap : ∀ i < n, entry m q ((dst + i) / 4096) ≠ 0)
    (hplain : ∀ i < n, ¬ IsTable m (dirsOf k V) (procHome k) (frameAt m q (dst + i)))
    (hne : ∀ i < n, ∀ j < n, halVmVirtToPhys m q (dst + i) ≠ halVmVirtToPhys m q (src + j)) :
    memcpyVirt q dst src n m = movedBytes m (fun i => halVmVirtToPhys m q (src + i))
        (fun i => halVmVirtToPhys m q (dst + i)) n ∧
      SameMaps k V m (memcpyVirt q dst src n m) := by
  induction n with
  | zero => exact ⟨rfl, .refl h⟩
  | succ n ih =>
    obtain ⟨e, hsame⟩ := ih (by omega) (by omega) (fun i hi => hmap i (by omega))
      (fun i hi => hplain i (by omega)) (fun i hi j hj => hne i (by omega) j (by omega))
    have hn := Nat.lt_succ_self n
    have e1 : (dst + n) % 2 ^ 32 = dst + n := Nat.mod_eq_of_lt (by omega)
    have e2 : (src + n) % 2 ^ 32 = src + n := Nat.mod_eq_of_lt (by omega)
    have hval : (memcpyVirt q dst src n m).mem (halVmVirtToPhys m q (src + n)) =
        m.mem (halVmVirtToPhys m q (src + n)) := by
      rw [e]
      exact transfer_other fun i hi => hne i (by omega) n hn
    have hstep : memcpyVirt q dst src (n + 1) m =
        { memcpyVirt q dst src n m with
          mem := Function.update (memcpyVirt q dst src n m).mem (halVmVirtToPhys m q (dst + n))
            (m.mem (halVmVirtToPhys m q (src + n))) } := by
      rw [memcpyVirt]
      simp only [e1, e2]
      rw [hsame.virtToPhys hq (by omega), hsame.virtToPhys hq (by omega), hval]
    have hphys := virtToPhys_of_mapped (hmap n hn)
    refine ⟨?_, hsame.trans ?_⟩
    · rw [hstep, e]
      rfl
    · rw [hstep]
      refine hsame.dirs.data_write (fun ht => hplain n hn ((hsame.table _).1 ht))
        (frameAt_aligned m q (dst + n)) rfl fun a ha => Function.update_of_ne ?_ _ _
      rintro rfl
      omega

/-! ## One page -/

/-- The place that is written lies in the frame that is. -/
theorem CopyWay.dst_frame {f g x y : ℕ} (way : CopyWay) (hx : x < 4096) (hy : y < 4096) :
    way.dst f g ≤ way.dst (f + x) (g + y) ∧ way.dst (f + x) (g + y) < way.dst f g + 4096 := by
  cases way <;> simp only [CopyWay.dst] <;> omega

theorem CopyWay.dst_aligned {f g : ℕ} (way : CopyWay) (hf : f % 4096 = 0) (hg : g % 4096 = 0) :
    way.dst f g % 4096 = 0 := by
  cases way <;> assumption

theorem getU32_eq_zero {b : Buf} {off : ℕ} (h : getU32 b off = 0) (h1 : off ≤ j)
    (h2 : j < off + 4) : b j = 0 := by
  rw [getU32] at h
  have hz : ∀ c : UInt8, c.toNat = 0 → c = 0 := fun c hc => UInt8.toNat_inj.1 hc
  obtain rfl | rfl | rfl | rfl : j = off ∨ j = off + 1 ∨ j = off + 2 ∨ j = off + 3 := by omega
  all_goals exact hz _ (by omega)

theorem WindowFree.entry (h : WindowFree m k) : entry m k windowPage = 0 := by
  rw [Kabanos.entry]
  split_ifs
  · rw [show word m (pageOf (word m k (windowPage / 1024))) (windowPage % 1024) = 0 from h]
    rfl
  · rfl

theorem OpenWindow.slot_eq (h : OpenWindow k V curr f t m m₁) (hd : Dirs m k V)
    (hc : curr ∈ dirsOf k V) : t = pageOf (word m k (windowPage / 1024)) := by
  rw [h.slot, hd.tables.shared curr hc _ (by decide), procHome_upper (by decide)]

theorem OpenWindow.mem_off (h : OpenWindow k V curr f t m m₁) (hd : Dirs m k V)
    (hc : curr ∈ dirsOf k V) {a : ℕ} (ha : OffWindowSlot m k a) : m₁.mem a = m.mem a := by
  obtain ⟨w, -, -, rfl⟩ := h.opened
  rw [OffWindowSlot, windowSlot, ← h.slot_eq hd hc] at ha
  exact if_neg ha

theorem OpenWindow.restored (h : OpenWindow k V curr f t m m₁) (hd : Dirs m k V)
    (hc : curr ∈ dirsOf k V) (hfree : WindowFree m k) (ht : SameFrame m₁ m₂ t) :
    SameFrame m (setWord m₂ t (windowPage % 1024) 0) t := by
  intro a h1 h2
  by_cases hin : t + 4 * (windowPage % 1024) ≤ a ∧ a < t + 4 * (windowPage % 1024) + 4
  · -- the entry was zero and is so again
    have hz : getU32 m.mem (t + 4 * (windowPage % 1024)) = 0 := by
      rw [h.slot_eq hd hc]
      exact hfree
    rw [getU32_eq_zero hz hin.1 hin.2]
    refine (if_pos hin).trans ?_
    rw [Nat.zero_div]
    rfl
  · obtain ⟨w, -, -, hm1⟩ := h.opened
    refine (if_neg hin).trans ((ht a h1 h2).trans ?_)
    rw [hm1]
    exact if_neg hin

/-- **The state when the window is closed**: only what was written while it was open differs. -/
theorem OpenWindow.closed_eq (mem : Buf) (h : OpenWindow k V curr f t m m₁)
    (hd : Dirs m k V) (hc : curr ∈ dirsOf k V) (hfree : WindowFree m k) (h2 : SameMaps k V m₁ m₂)
    (hpmm : m₂.pmm = m₁.pmm) (ht : SameFrame m₁ m₂ t)
    (hin : ∀ a, t ≤ a ∧ a < t + 4096 → mem a = m.mem a)
    (hout : ∀ a, ¬ (t ≤ a ∧ a < t + 4096) → m₂.mem a = mem a) :
    halVmUnmap m₂ curr kmappingBase = { m with mem := mem } ∧
      SameMaps k V m { m with mem := mem } := by
  obtain ⟨e, hs⟩ := h.close hd hc hfree.entry h2 ht
  have hpm : (setWord m₂ t (windowPage % 1024) 0).pmm = m.pmm := by
    obtain ⟨w, -, -, hw⟩ := h.opened
    have h1 : m₁.pmm = m.pmm := by rw [hw]; rfl
    exact hpmm.trans h1
  have hmem : (setWord m₂ t (windowPage % 1024) 0).mem = mem := by
    ext1 a
    by_cases ha : t ≤ a ∧ a < t + 4096
    · rw [h.restored hd hc hfree ht a ha.1 ha.2, hin a ha]
    · rw [setWord_mem (by decide) ha, hout a ha]
  have e' : setWord m₂ t (windowPage % 1024) 0 = { m with mem := mem } := by rw [← hmem, ← hpm]
  exact ⟨e.trans e', e' ▸ hs⟩

/-- The state after the first `n` bytes of a copy between the places `user` and `kernel`. -/
def movedWay (way : CopyWay) (m : Mm) (user kernel : ℕ → ℕ) (n : ℕ) : Mm :=
  movedBytes m (fun i => way.src (user i) (kernel i)) (fun i => way.dst (user i) (kernel i)) n

theorem movedBytes_congr {src dst src' dst' : ℕ → ℕ} (hs : ∀ i < n, src i = src' i)
    (hd : ∀ i < n, dst i = dst' i) : movedBytes m src dst n = movedBytes m src' dst' n := by
  have e : transfer src dst m.mem n = transfer src' dst' m.mem n :=
    funext fun a => transfer_congr hs hd (fun _ _ => rfl) rfl
  rw [movedBytes, movedBytes, e]

/-- The kernel's side of one page of a copy of frame `f`. -/
structure KernelSide (m : Mm) (curr f kernel n : ℕ) : Prop where
  bound : kernel + n ≤ 2 ^ 32
  mapped : ∀ i < n, entry m curr ((kernel + i) / 4096) ≠ 0
  apart : ∀ i < n, f ≠ frameAt m curr (kernel + i)

theorem KernelSide.ne (h : KernelSide m curr f kernel n) (hfa : f % 4096 = 0)
    (hoff : off + n ≤ 4096) (hi : i < n) (hj : j < n) :
    f + off + i ≠ halVmVirtToPhys m curr (kernel + j) := by
  have h1 := h.apart j hj
  have h2 := frameAt_aligned m curr (kernel + j)
  rw [virtToPhys_of_mapped (h.mapped j hj)]
  omega

theorem KernelSide.opened (h : KernelSide m curr f kernel n) (ho : OpenWindow k V curr f t m m₁)
    (hc : curr ∈ dirsOf k V) (hw : entry m curr windowPage = 0) :
    KernelSide m₁ curr f kernel n ∧
      ∀ i < n, frameAt m₁ curr (kernel + i) = frameAt m curr (kernel + i) ∧
        halVmVirtToPhys m₁ curr (kernel + i) = halVmVirtToPhys m curr (kernel + i) := by
  have hK : ∀ i < n, _ := fun i hi => ho.elsewhere hc
    (show kernel + i < 2 ^ 32 by have := h.bound; omega) fun e => h.mapped i hi (e ▸ hw)
  refine ⟨⟨h.bound, fun i hi => ?_, fun i hi => ?_⟩, fun i hi => (hK i hi).2⟩
  · rw [(hK i hi).1]
    exact h.mapped i hi
  · rw [(hK i hi).2.1]
    exact h.apart i hi

/-- **The bytes pass through the open window.** -/
theorem OpenWindow.copy (ho : OpenWindow k V curr f t m m₁) (way : CopyWay)
    (hc : curr ∈ dirsOf k V) (hfa : f % 4096 = 0) (hoff : off + n ≤ 4096)
    (hk0 : KernelSide m curr f kernel n) (hdst : ∀ i < n, ¬ IsTable m (dirsOf k V) (procHome k)
      (way.dst f (frameAt m curr (kernel + i)))) (hw : entry m curr windowPage = 0) :
    memcpyVirt curr (way.dst (kmappingBase + off) kernel)
      (way.src (kmappingBase + off) kernel) n m₁ =
        movedWay way m₁ (fun i => f + off + i) (fun i => halVmVirtToPhys m curr (kernel + i)) n ∧
      SameMaps k V m₁ (memcpyVirt curr (way.dst (kmappingBase + off) kernel)
        (way.src (kmappingBase + off) kernel) n m₁) := by
  obtain ⟨hk, hkm⟩ := hk0.opened ho hc hw
  have hphys : ∀ i < n, _ := fun i hi => (hkm i hi).2
  have hW : ∀ i < n, entry m₁ curr ((kmappingBase + off + i) / 4096) ≠ 0 ∧
      frameAt m₁ curr (kmappingBase + off + i) = f ∧
      halVmVirtToPhys m₁ curr (kmappingBase + off + i) = f + off + i := fun i hi => by
    rw [Nat.add_assoc, Nat.add_assoc f]
    exact ho.window (by omega)
  have hb : kmappingBase + off + n ≤ 2 ^ 32 := by rw [kmappingBase]; omega
  cases way with
  | toUser =>
    obtain ⟨e, hs⟩ := memcpyVirt_eq ho.dirs hc hb hk.bound (fun i hi => (hW i hi).1)
      (fun i hi => by rw [(hW i hi).2.1, ho.isTable]; exact hdst i hi)
      (fun i hi j hj => by rw [(hW i hi).2.2]; exact hk.ne hfa hoff hi hj)
    exact ⟨e.trans (movedBytes_congr hphys fun i hi => (hW i hi).2.2), hs⟩
  | fromUser =>
    obtain ⟨e, hs⟩ := memcpyVirt_eq ho.dirs hc hk.bound hb hk.mapped
      (fun i hi => by rw [(hkm i hi).1, ho.isTable]; exact hdst i hi)
      (fun i hi j hj => by rw [(hW j hj).2.2]; exact (hk.ne hfa hoff hj hi).symm)
    exact ⟨e.trans (movedBytes_congr (fun i hi => (hW i hi).2.2) hphys), hs⟩

/-- **One page of a copy** moves its bytes and does nothing else. -/
theorem copyWindow_eq (way : CopyWay) (h : Dirs m k V) (hc : curr ∈ dirsOf k V)
    (hfree : WindowFree m k) (hfa : f % 4096 = 0) (hf32 : f < 2 ^ 32) (hoff : off + n ≤ 4096)
    (hk : KernelSide m curr f kernel n)
    (hdst : ∀ i < n, ¬ IsTable m (dirsOf k V) (procHome k)
      (way.dst f (frameAt m curr (kernel + i))))
    (hsrc : ∀ i < n, OffWindowSlot m k
      (way.src (f + off + i) (halVmVirtToPhys m curr (kernel + i)))) :
    copyWindow way curr m f off kernel n =
        movedWay way m (fun i => f + off + i) (fun i => halVmVirtToPhys m curr (kernel + i)) n ∧
      SameMaps k V m (copyWindow way curr m f off kernel n) := by
  obtain ⟨t, m₁, hopen, ho⟩ := h.open_window hc hfa hf32
  obtain ⟨e2, hs2⟩ := ho.copy way hc hfa hoff hk hdst
    ((h.entry_upper hc (by decide) (by decide)).trans hfree.entry)
  -- what is written does not lie in the page table of the window
  have hout : ∀ i < n, ¬ (t ≤ way.dst (f + off + i) (halVmVirtToPhys m curr (kernel + i)) ∧
      way.dst (f + off + i) (halVmVirtToPhys m curr (kernel + i)) < t + 4096) := fun i hi => by
    have hin := way.dst_frame (f := f) (g := frameAt m curr (kernel + i)) (x := off + i)
      (y := (kernel + i) % 4096) (by omega) (by omega)
    rw [virtToPhys_of_mapped (hk.mapped i hi), Nat.add_assoc f]
    exact not_in_frame ho.aligned (way.dst_aligned hfa (frameAt_aligned ..))
      (fun e => hdst i hi (e ▸ ho.table)) hin.1 hin.2
  set m₂ := memcpyVirt curr (way.dst (kmappingBase + off) kernel)
    (way.src (kmappingBase + off) kernel) n m₁
  have hmem2 : m₂.mem =
      transfer (fun i => way.src (f + off + i) (halVmVirtToPhys m curr (kernel + i)))
        (fun i => way.dst (f + off + i) (halVmVirtToPhys m curr (kernel + i))) m₁.mem n := by
    rw [e2]
    rfl
  have hframe : SameFrame m₁ m₂ t := fun a h1 h2 => by
    rw [hmem2]
    refine transfer_other fun i hi e => hout i hi ?_
    rw [e]
    exact ⟨h1, h2⟩
  have hpmm : m₂.pmm = m₁.pmm := by rw [e2]; rfl
  obtain ⟨e3, hs3⟩ := ho.closed_eq (movedWay way m (fun i => f + off + i)
      (fun i => halVmVirtToPhys m curr (kernel + i)) n).mem h hc hfree hs2 hpmm hframe
    (fun a ha => transfer_other fun i hi e => hout i hi (by rw [e]; exact ha))
    (fun a ha => by
      rw [hmem2]
      exact transfer_congr (fun _ _ => rfl) (fun _ _ => rfl)
        (fun i hi => ho.mem_off h hc (hsrc i hi)) (ho.mem ha))
  have e : copyWindow way curr m f off kernel n = halVmUnmap m₂ curr kmappingBase := by
    rw [copyWindow, hopen]
  rw [e, e3]
  exact ⟨rfl, hs3⟩

/-! ## The loop -/

/-- The place in memory of byte `i` of the user's side, and of the kernel's side. -/
def userPlace (m : Mm) (vm user i : ℕ) : ℕ := halVmVirtToPhys m vm (user + i)
def kernelPlace (m : Mm) (curr kernel i : ℕ) : ℕ := halVmVirtToPhys m curr (kernel + i)

/-- The state after the first `d` bytes. -/
def copiedBytes (way : CopyWay) (m : Mm) (curr vm user kernel d : ℕ) : Mm :=
  movedWay way m (userPlace m vm user) (kernelPlace m curr kernel) d

/-- The first `d` bytes of the user's side are mapped, to frames other than frame 0. -/
def ReachesTo (m : Mm) (vm user d : ℕ) : Prop := ∀ i < d, frameAt m vm (user + i) ≠ 0

section
variable (h : CopyArgs way m k V curr vm user kernel size)
include h

theorem CopyArgs.ne (hi : i < size) (hj : j < size) (hf : frameAt m vm (user + i) ≠ 0) :
    userPlace m vm user i ≠ kernelPlace m curr kernel j := by
  have he := frameAt_ne_zero hf
  have h1 := h.apart i hi j hj he
  have h2 := frameAt_aligned m vm (user + i)
  have h3 := frameAt_aligned m curr (kernel + j)
  rw [userPlace, kernelPlace, virtToPhys_of_mapped he, virtToPhys_of_mapped (h.buffer j hj)]
  omega

theorem CopyArgs.sameFrame (hd : d ≤ size) (hr : ReachesTo m vm user d)
    (ht : IsTable m (dirsOf k V) (procHome k) t) :
    SameFrame m (copiedBytes way m curr vm user kernel d) t := by
  intro a h1 h2
  have hta := (h.dirs.tables.isTable_held ht).isFrame.aligned h.dirs.tables.framed
  refine transfer_other fun i hi e => ?_
  have hin := way.dst_frame (f := frameAt m vm (user + i)) (g := frameAt m curr (kernel + i))
    (x := (user + i) % 4096) (y := (kernel + i) % 4096) (by omega) (by omega)
  rw [← virtToPhys_of_mapped (frameAt_ne_zero (hr i hi)),
    ← virtToPhys_of_mapped (h.buffer i (by omega))] at hin
  have hout := not_in_frame hta (way.dst_aligned (frameAt_aligned ..) (frameAt_aligned ..))
    (fun e => h.written i (by omega) (e ▸ ht)) hin.1 hin.2
  exact hout (e ▸ ⟨h1, h2⟩)

theorem CopyArgs.windowFree (hd : d ≤ size) (hr : ReachesTo m vm user d)
    (hs : SameMaps k V m (copiedBytes way m curr vm user kernel d)) :
    WindowFree (copiedBytes way m curr vm user kernel d) k := by
  have ht := h.dirs.tables.table_isTable (.inl rfl) (i := windowPage / 1024) (by decide)
    (h.dirs.upper _ (by decide) (by decide))
  rw [WindowFree, hs.pde k (.inl rfl) _ (by decide), (h.sameFrame hd hr ht).word (by decide)]
  exact h.free

end

theorem userPlace_page (hf : frameAt m vm (user + d) ≠ 0) (hi : (user + d) % 4096 + i < 4096) :
    frameAt m vm (user + (d + i)) = frameAt m vm (user + d) ∧
      frameAt m vm (user + d) + (user + d) % 4096 + i = userPlace m vm user (d + i) := by
  have hpage : (user + (d + i)) / 4096 = (user + d) / 4096 := by omega
  have e : frameAt m vm (user + (d + i)) = frameAt m vm (user + d) := by
    rw [frameAt, frameAt, hpage]
  refine ⟨e, ?_⟩
  rw [userPlace, virtToPhys_of_mapped (by rw [hpage]; exact frameAt_ne_zero hf), e]
  omega

theorem ReachesTo.page (hr : ReachesTo m vm user d) (hf : frameAt m vm (user + d) ≠ 0)
    (hoff : (user + d) % 4096 + n ≤ 4096) : ReachesTo m vm user (d + n) := by
  intro i hi
  by_cases hid : i < d
  · exact hr i hid
  · obtain ⟨i, rfl⟩ : ∃ i', i = d + i' := ⟨i - d, by omega⟩
    rw [(userPlace_page hf (by omega)).1]
    exact hf

/-- **One page of the loop** takes the state after `d` bytes to the one after `d + n` bytes. -/
theorem CopyArgs.page (h : CopyArgs way m k V curr vm user kernel size)
    (hr : ReachesTo m vm user d) (hs : SameMaps k V m (copiedBytes way m curr vm user kernel d))
    (hf : frameAt m vm (user + d) ≠ 0) (hn : 0 < n) (hdn : d + n ≤ size)
    (hoff : (user + d) % 4096 + n ≤ 4096) :
    copyWindow way curr (copiedBytes way m curr vm user kernel d) (frameAt m vm (user + d))
        ((user + d) % 4096) (kernel + d) n = copiedBytes way m curr vm user kernel (d + n) ∧
      SameMaps k V m (copiedBytes way m curr vm user kernel (d + n)) ∧
      ReachesTo m vm user (d + n) := by
  have hcd := h.current
  have hu := h.userEnd
  have hke := h.kernelEnd
  have he := frameAt_ne_zero hf
  have hside : KernelSide (copiedBytes way m curr vm user kernel d) curr
      (frameAt m vm (user + d)) (kernel + d) n := by
    refine ⟨by omega, fun i hi => ?_, fun i hi => ?_⟩
    · rw [hs.entry curr hcd _ (by omega), Nat.add_assoc]
      exact h.buffer (d + i) (by omega)
    · rw [hs.frameAt hcd (by omega), Nat.add_assoc]
      exact h.apart d (by omega) (d + i) (by omega) he
  have hslot : windowSlot (copiedBytes way m curr vm user kernel d) k = windowSlot m k := by
    rw [windowSlot, windowSlot, hs.pde k (.inl rfl) _ (by decide)]
  have hU : ∀ i < n, frameAt m vm (user + d) + (user + d) % 4096 + i =
      userPlace m vm user (d + i) :=
    fun i hi => (userPlace_page hf (by omega)).2
  have hK : ∀ i < n,
      halVmVirtToPhys (copiedBytes way m curr vm user kernel d) curr (kernel + d + i) =
      kernelPlace m curr kernel (d + i) := fun i hi => by
    rw [hs.virtToPhys hcd (by omega), Nat.add_assoc, kernelPlace]
  obtain ⟨e, hs'⟩ := copyWindow_eq way hs.dirs h.current (h.windowFree (by omega) hr hs)
    (frameAt_aligned m vm (user + d)) (frameAt_lt ..) hoff hside
    (fun i hi => by
      rw [hs.table, hs.frameAt hcd (by omega), ← (userPlace_page (i := i) hf (by omega)).1,
        Nat.add_assoc]
      exact h.written (d + i) (by omega))
    (fun i hi => by
      rw [OffWindowSlot, hslot, hU i hi, hK i hi]
      exact h.read (d + i) (by omega))
  have hreach := hr.page hf hoff
  have hmove : copyWindow way curr (copiedBytes way m curr vm user kernel d)
      (frameAt m vm (user + d)) ((user + d) % 4096) (kernel + d) n =
      copiedBytes way m curr vm user kernel (d + n) := by
    have hsrc : ∀ i < n, way.src (frameAt m vm (user + d) + (user + d) % 4096 + i)
        (halVmVirtToPhys (copiedBytes way m curr vm user kernel d) curr (kernel + d + i)) =
        way.src (userPlace m vm user (d + i)) (kernelPlace m curr kernel (d + i)) :=
      fun i hi => by rw [hU i hi, hK i hi]
    have hdst : ∀ i < n, way.dst (frameAt m vm (user + d) + (user + d) % 4096 + i)
        (halVmVirtToPhys (copiedBytes way m curr vm user kernel d) curr (kernel + d + i)) =
        way.dst (userPlace m vm user (d + i)) (kernelPlace m curr kernel (d + i)) :=
      fun i hi => by rw [hU i hi, hK i hi]
    rw [e, movedWay, movedBytes_congr hsrc hdst]
    refine congrArg (Mm.mk m.pmm) (@transfer_add
      (fun i => way.src (userPlace m vm user i) (kernelPlace m curr kernel i))
      (fun i => way.dst (userPlace m vm user i) (kernelPlace m curr kernel i)) m.mem n d
      fun i hi j hj => ?_)
    cases way
    · exact h.ne (by omega) (by omega) (hreach i (by omega))
    · exact (h.ne (by omega) (by omega) (hreach (d + j) (by omega))).symm
  refine ⟨hmove, hs.trans (hmove ▸ hs'), hreach⟩

theorem SameMaps.page_frame (hs : SameMaps k V m m') (hq : q ∈ dirsOf k V) (hva : va < 2 ^ 32) :
    halVmVirtToPhys m' q (alignDown va) = Kabanos.frameAt m q va := by
  have e3 : alignDown va / 4096 = va / 4096 := by rw [alignDown]; omega
  have e4 : alignDown va % 4096 = 0 := by rw [alignDown]; omega
  rw [virtToPhys_eq, e3, e4, hs.entry q hq _ (by omega), Nat.add_zero, Kabanos.frameAt]
  split_ifs with hz
  · rw [hz]; rfl
  · rfl

theorem copyVirtLoop_eq (way : CopyWay) (curr vm : ℕ) (m : Mm) (user kernel : ℕ) {rem : ℕ}
    (h : rem ≠ 0) :
    copyVirtLoop way curr vm m user kernel rem =
      let toCopy := min (4096 - user % 4096) rem
      if halVmVirtToPhys m vm (alignDown user) = 0 then (m, false)
      else copyVirtLoop way curr vm
        (copyWindow way curr m (halVmVirtToPhys m vm (alignDown user)) (user % 4096) kernel toCopy)
        ((user + toCopy) % 2 ^ 32) ((kernel + toCopy) % 2 ^ 32) (rem - toCopy) := by
  rw [copyVirtLoop, dif_neg h]

/-- **The loop** copies the bytes before the first page that is not mapped, or is mapped to
    frame 0. -/
theorem CopyArgs.loop (h : CopyArgs way m k V curr vm user kernel size) :
    ∀ rem d, d + rem = size → ReachesTo m vm user d →
      SameMaps k V m (copiedBytes way m curr vm user kernel d) →
      ∃ d' ≤ size, copyVirtLoop way curr vm (copiedBytes way m curr vm user kernel d)
          ((user + d) % 2 ^ 32) ((kernel + d) % 2 ^ 32) rem =
          (copiedBytes way m curr vm user kernel d', decide (d' = size)) ∧
        ReachesTo m vm user d' ∧ (d' < size → frameAt m vm (user + d') = 0) ∧
        SameMaps k V m (copiedBytes way m curr vm user kernel d') := by
  intro rem
  induction rem using Nat.strong_induction_on with
  | _ rem ih =>
  intro d hd hr hs
  by_cases h0 : rem = 0
  · subst h0
    obtain rfl : d = size := by omega
    refine ⟨d, le_rfl, ?_, hr, fun hlt => absurd hlt (lt_irrefl d), hs⟩
    rw [copyVirtLoop, dif_pos rfl, decide_eq_true rfl]
  have hu := h.userEnd
  have hk := h.kernelEnd
  have e1 : (user + d) % 2 ^ 32 = user + d := Nat.mod_eq_of_lt (by omega)
  have e2 : (kernel + d) % 2 ^ 32 = kernel + d := Nat.mod_eq_of_lt (by omega)
  have hphys := SameMaps.page_frame hs h.space (show user + d < 2 ^ 32 by omega)
  rw [e1, e2, copyVirtLoop_eq _ _ _ _ _ _ h0, hphys]
  simp only
  by_cases hz : frameAt m vm (user + d) = 0
  · rw [if_pos hz]
    refine ⟨d, by omega, ?_, hr, fun _ => hz, hs⟩
    rw [decide_eq_false (by omega)]
  · rw [if_neg hz]
    obtain ⟨n, hn⟩ : ∃ n, min (4096 - (user + d) % 4096) rem = n := ⟨_, rfl⟩
    rw [hn]
    have hn1 : 0 < n ∧ n ≤ rem ∧ (user + d) % 4096 + n ≤ 4096 := by omega
    obtain ⟨ep, hs', hr'⟩ := h.page hr hs hz hn1.1 (by omega) hn1.2.2
    rw [ep, Nat.add_assoc, Nat.add_assoc]
    exact ih (rem - n) (by omega) (d + n) (by omega) hr' hs'

/-- What a copy does: it succeeds if all pages of the user's range are mapped, to frames other
    than frame 0; it copies the bytes before the first page where this is not so, changes no
    other byte, and leaves the window unmapped. -/
structure CopyDone (m : Mm) (k : ℕ) (V : Finset ℕ) (vm user size : ℕ) (src dst : ℕ → ℕ)
    (r : Mm × Bool) : Prop where
  result : r.2 = true ↔ ReachesTo m vm user size
  bytes : ∀ i < size, ReachesTo m vm user (i + 1) →
    (∀ j < size, i < j → ReachesTo m vm user (j + 1) → dst j ≠ dst i) →
    r.1.mem (dst i) = m.mem (src i)
  rest : ∀ a, (∀ i < size, ReachesTo m vm user (i + 1) → dst i ≠ a) → r.1.mem a = m.mem a
  frames : r.1.pmm = m.pmm
  window : ∀ q ∈ dirsOf k V, entry r.1 q windowPage = 0

theorem CopyArgs.done (h : CopyArgs way m k V curr vm user kernel size) :
    CopyDone m k V vm user size
      (fun i => way.src (userPlace m vm user i) (kernelPlace m curr kernel i))
      (fun i => way.dst (userPlace m vm user i) (kernelPlace m curr kernel i))
      (copyVirtLoop way curr vm m (user % 2 ^ 32) (kernel % 2 ^ 32) size) := by
  obtain ⟨d, hd, e, hr, hstop, hs⟩ := h.loop size 0 (by omega)
    (fun i hi => absurd hi (by omega)) (.refl h.dirs)
  rw [Nat.add_zero, Nat.add_zero] at e
  have e : copyVirtLoop way curr vm m (user % 2 ^ 32) (kernel % 2 ^ 32) size =
    (copiedBytes way m curr vm user kernel d, decide (d = size)) := e
  have hiff : ∀ i < size, ReachesTo m vm user (i + 1) ↔ i < d := fun i hi => by
    refine ⟨fun hi' => ?_, fun hid j hj => hr j (by omega)⟩
    by_contra hn
    exact hi' d (by omega) (hstop (by omega))
  rw [e]
  refine ⟨?_, fun i hi hri hlast => ?_, fun a ha => ?_, rfl, fun q hq => ?_⟩
  · rw [decide_eq_true_iff]
    refine ⟨fun e => e ▸ hr, fun hall => ?_⟩
    by_contra hn
    exact hall d (by omega) (hstop (by omega))
  · refine transfer_last ((hiff i hi).1 hri) fun j h1 h2 => ?_
    exact hlast j (by omega) h1 ((hiff j (by omega)).2 h2)
  · exact transfer_other fun i hi => ha i (by omega) ((hiff i (by omega)).2 hi)
  · rw [hs.entry q hq _ (by decide), h.dirs.entry_upper hq (by decide) (by decide)]
    exact h.free.entry

theorem CopyArgs.from_done (h : CopyArgs .fromUser m k V curr vm user kernel size) :
    CopyDone m k V vm user size (userPlace m vm user) (kernelPlace m curr kernel)
      (vmspaceCopyFrom m curr vm kernel user size) := by
  have h1 := h.done
  rwa [Nat.mod_eq_of_lt h.userAddr, Nat.mod_eq_of_lt h.kernelAddr] at h1

theorem CopyArgs.to_done (h : CopyArgs .toUser m k V curr vm user kernel size) :
    CopyDone m k V vm user size (kernelPlace m curr kernel) (userPlace m vm user)
      (vmspaceCopyToVirt m curr vm user kernel size) := by
  have h1 := h.done
  rwa [Nat.mod_eq_of_lt h.userAddr, Nat.mod_eq_of_lt h.kernelAddr] at h1

/-- **Copies between address spaces.** -/
theorem vmspace_copy_exact :
    (CopyArgs .fromUser m k V curr vm user kernel size →
      CopyDone m k V vm user size (userPlace m vm user) (kernelPlace m curr kernel)
        (vmspaceCopyFrom m curr vm kernel user size)) ∧
    (CopyArgs .toUser m k V curr vm user kernel size →
      CopyDone m k V vm user size (kernelPlace m curr kernel) (userPlace m vm user)
        (vmspaceCopyToVirt m curr vm user kernel size)) :=
  ⟨CopyArgs.from_done, CopyArgs.to_done⟩

/-- `uaccess_copy_from_user` is the copy within the current address space. -/
theorem uaccessCopyFromUser_done (h : CopyArgs .fromUser m k V curr curr user kernel size) :
    CopyDone m k V curr user size (userPlace m curr user) (kernelPlace m curr kernel)
      (uaccessCopyFromUser m curr kernel user size) := h.from_done

/-- `uaccess_copy_to_user` is the copy within the current address space. -/
theorem uaccessCopyToUser_done (h : CopyArgs .toUser m k V curr curr user kernel size) :
    CopyDone m k V curr user size (kernelPlace m curr kernel) (userPlace m curr user)
      (uaccessCopyToUser m curr user kernel size) := h.to_done

/-! ## A process with a page -/

theorem Dirs.map_kernel {v pa : ℕ} (h : Dirs m k V) (hc : curr ∈ dirsOf k V) (hv1 : userPages ≤ v)
    (hv2 : v + 1 < 2 ^ 20) (hpa : pa % 4096 = 0) (hpa32 : pa < 2 ^ 32) (fl : ℕ) :
    Dirs (halVmMap m curr (v * 4096) pa fl).1 k V ∧
      ∀ t, IsTable (halVmMap m curr (v * 4096) pa fl).1 (dirsOf k V) (procHome k) t ↔
        IsTable m (dirsOf k V) (procHome k) t := by
  have hw : makePte pa (publicFlagsToArchFlags fl) < 2 ^ 32 := makePte_lt hpa hpa32
  obtain ⟨t, et, hpr, ht0, -, -, d1, p1, -⟩ := h.kernel_entry hc hv1 (by omega) hw
  rw [halVmMap_present hv2 hpr (et ▸ ht0) hpa32, ← et]
  exact ⟨d1, fun a => IsTable.congr p1⟩

end

/-- The process `demoParent` while the kernel has frames `0` and `0x1F0000` mapped at
    `KERNEL_BASE` and above. -/
def demoHigh : Mm :=
  (halVmMap (halVmMap demoParent 0x102000 0xC0000000 0 0x2).1 0x102000 0xC01F0000 0x1F0000 0x2).1

theorem demoHigh_dirs : Dirs demoHigh 0x1000 {0x102000} ∧
    ∀ t, IsTable demoHigh (dirsOf 0x1000 {0x102000}) (procHome 0x1000) t ↔
      IsTable demoParent (dirsOf 0x1000 {0x102000}) (procHome 0x1000) t := by
  have hc : 0x102000 ∈ dirsOf 0x1000 {0x102000} := mem_dirsOf (by decide)
  have h0 := demoParent_closed.toDirs
  obtain ⟨d1, t1⟩ := h0.map_kernel hc (v := 0xC0000) (by decide) (by decide) (Nat.zero_mod _)
    (by norm_num) 0x2
  obtain ⟨d2, t2⟩ := d1.map_kernel hc (v := 0xC01F0) (by decide) (by decide)
    (show 0x1F0000 % 4096 = 0 from rfl) (by norm_num) 0x2
  exact ⟨d2, fun t => (t2 t).trans (t1 t)⟩

theorem Dirs.offWindowSlot {m : Mm} {k f x : ℕ} {V : Finset ℕ} (h : Dirs m k V)
    (hf : ¬ IsTable m (dirsOf k V) (procHome k) f) (hfa : f % 4096 = 0) (hx : x < 4096) :
    OffWindowSlot m k (f + x) := by
  have ht := h.tables.table_isTable (.inl rfl) (i := windowPage / 1024) (by decide)
    (h.upper _ (by decide) (by decide))
  have hout := not_in_frame (pageOf_aligned _) hfa (fun e => hf (e ▸ ht)) (Nat.le_add_right f x)
    (by omega)
  rw [OffWindowSlot, windowSlot]
  have hw : windowPage % 1024 = 1 := by decide
  omega

/-- A copy between the buffer at `0xC01F0100` and the process, while the kernel's own address space
    is the current one. -/
theorem demoHigh_args (way : CopyWay) (user : ℕ) {f : ℕ} (hu : user + 8 ≤ 2 ^ 32)
    (hmap : ∀ i < 8, entry demoHigh 0x102000 ((user + i) / 4096) ≠ 0)
    (hf : ∀ i < 8, frameAt demoHigh 0x102000 (user + i) = f) (hne : f ≠ 0x1F0000)
    (hplain : ¬ IsTable demoHigh (dirsOf 0x1000 {0x102000}) (procHome 0x1000) f) :
    CopyArgs way demoHigh 0x1000 {0x102000} 0x1000 0x102000 user 0xC01F0100 8 := by
  have hframe : ∀ i < 8, frameAt demoHigh 0x1000 (0xC01F0100 + i) = 0x1F0000 := by decide +kernel
  have hbuf : ∀ i < 8, entry demoHigh 0x1000 ((0xC01F0100 + i) / 4096) ≠ 0 := by decide +kernel
  obtain ⟨hd, -⟩ := demoHigh_dirs
  have hfree : ¬ IsTable demoHigh (dirsOf 0x1000 {0x102000}) (procHome 0x1000) 0x1F0000 := by
    intro ht
    obtain ⟨f, -, -, he, hb⟩ := hd.tables.isTable_held ht
    have hf : f = 0x1F0 := by
      have e : demoHigh.pmm.memoryRange.start = 0 := by decide +kernel
      rw [frameToAlignedAddr, e] at he
      omega
    subst hf
    revert hb
    decide +kernel
  have hfa : f % 4096 = 0 := hf 0 (by norm_num) ▸ frameAt_aligned ..
  refine ⟨hd, .inl rfl, mem_dirsOf (by decide), by unfold WindowFree; decide +kernel, by omega,
    by norm_num, hu, by norm_num, hbuf, fun i hi => ?_, fun i hi => ?_, fun i hi j hj _ => ?_⟩
  · rw [hf i hi, hframe i hi]
    cases way <;> assumption
  · rw [virtToPhys_of_mapped (hmap i hi), virtToPhys_of_mapped (hbuf i hi), hf i hi, hframe i hi]
    cases way
    · exact hd.offWindowSlot hfree (by norm_num) (by omega)
    · exact hd.offWindowSlot hplain hfa (by omega)
  · rw [hf i hi, hframe j hj]
    exact hne

/-- A copy from the page of the process and one to it. -/
theorem vmspace_copy_page :
    (∀ way, CopyArgs way demoHigh 0x1000 {0x102000} 0x1000 0x102000 0x8048FF0 0xC01F0100 8) ∧
      CopyDone demoHigh 0x1000 {0x102000} 0x102000 0x8048FF0 8
        (userPlace demoHigh 0x102000 0x8048FF0) (kernelPlace demoHigh 0x1000 0xC01F0100)
        (vmspaceCopyFrom demoHigh 0x1000 0x102000 0xC01F0100 0x8048FF0 8) ∧
      CopyDone demoHigh 0x1000 {0x102000} 0x102000 0x8048FF0 8
        (kernelPlace demoHigh 0x1000 0xC01F0100) (userPlace demoHigh 0x102000 0x8048FF0)
        (vmspaceCopyToVirt demoHigh 0x1000 0x102000 0x8048FF0 0xC01F0100 8) := by
  have hf : ∀ i < 8, frameAt demoHigh 0x102000 (0x8048FF0 + i) =
      pageOf (entry demoParent 0x102000 0x8048) := by decide +kernel
  have hargs (way : CopyWay) := demoHigh_args way 0x8048FF0 (by norm_num)
    (by decide +kernel) hf (by decide +kernel) fun ht =>
      (demoParent_closed.data 0x102000 (by decide)
      0x8048 (by decide) (by decide +kernel)).2 ((demoHigh_dirs.2 _).1 ht)
  exact ⟨hargs, vmspace_copy_exact.1 (hargs _), vmspace_copy_exact.2 (hargs _)⟩

/-- `demoHigh` where the page table of the window is mapped in the kernel half, and the directory
    of the process behind it. -/
def demoTabled : Mm :=
  (halVmMap (halVmMap demoHigh 0x102000 0xC01F1000
    (pageOf (word demoHigh 0x1000 (windowPage / 1024))) 0x2).1 0x102000 0xC01F2000 0x102000 0x2).1

/-- The page at `KERNEL_BASE` is mapped, but to frame 0: the copies fail.  And where the copy
    reads the entry of the window it sees the window open; where it writes it, the byte is gone when
    the window is closed. -/
theorem vmspace_copy_frame_zero :
    ((∀ way, CopyArgs way demoHigh 0x1000 {0x102000} 0x1000 0x102000 0xC0000000 0xC01F0100 8) ∧
      (∀ i < 8, entry demoHigh 0x102000 ((0xC0000000 + i) / 4096) ≠ 0) ∧
      (vmspaceCopyFrom demoHigh 0x1000 0x102000 0xC01F0100 0xC0000000 8).2 = false ∧
      (vmspaceCopyToVirt demoHigh 0x1000 0x102000 0xC0000000 0xC01F0100 8).2 = false) ∧
    WindowFree demoTabled 0x1000 ∧
    ((vmspaceCopyFrom demoTabled 0x1000 0x102000 0xC01F0100 0xC01F1004 1).2 = true ∧
      (vmspaceCopyFrom demoTabled 0x1000 0x102000 0xC01F0100 0xC01F1004 1).1.mem
        (kernelPlace demoTabled 0x1000 0xC01F0100 0) ≠
          demoTabled.mem (userPlace demoTabled 0x102000 0xC01F1004 0)) ∧
    (vmspaceCopyToVirt demoTabled 0x1000 0x102000 0xC01F1004 0xC01F2C00 1).2 = true ∧
      (vmspaceCopyToVirt demoTabled 0x1000 0x102000 0xC01F1004 0xC01F2C00 1).1.mem
        (userPlace demoTabled 0x102000 0xC01F1004 0) ≠
          demoTabled.mem (kernelPlace demoTabled 0x1000 0xC01F2C00 0) := by
  have hf : ∀ i < 8, frameAt demoHigh 0x102000 (0xC0000000 + i) = 0 := by decide +kernel
  have hmap : ∀ i < 8, entry demoHigh 0x102000 ((0xC0000000 + i) / 4096) ≠ 0 := by decide +kernel
  refine ⟨⟨fun way => demoHigh_args way _ (by norm_num) hmap hf (by norm_num)
      fun ht => ht.1 rfl, hmap,
    by decide +kernel, by decide +kernel⟩, by unfold WindowFree; decide +kernel,
    ⟨by decide +kernel, by decide +kernel⟩, by decide +kernel, by decide +kernel⟩

end Kabanos
