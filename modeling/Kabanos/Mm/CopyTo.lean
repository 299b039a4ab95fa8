/-
  Copies into an address space: `vmspace_copy_to`.

  The copy writes to the frames of the destination through a window of the kernel, not
  through the page table entries of the process, so it neither sees nor keeps what those
  entries say about sharing.
-/
import Kabanos.Mm.Backed

namespace Kabanos

variable {w t j dst src s f : ℕ} {m₁ m : Mm}

/-- The entry of page `v` if a process may read the page: both the directory and the page
    table allow it. -/
def userEntry (m : Mm) (p v : ℕ) : ℕ :=
  if isUser (word m p (v / 1024)) ∧ isUser (entry m p v) then entry m p v else 0

/-- The byte that process `p` reads at `va`, if it may. -/
def userRead (m : Mm) (p va : ℕ) : Option UInt8 :=
  if userEntry m p (va / 4096) = 0 then none
  else some (m.mem (pageOf (userEntry m p (va / 4096)) + va % 4096))

/-- The page of `KMAPPING_BASE`. -/
def windowPage : ℕ := 0xF0001

/-- Address spaces between two copies: processes cannot read the kernel half, and the window
    is not mapped. -/
structure Closed (m : Mm) (k : ℕ) (V : Finset ℕ) : Prop extends Spaces m k V where
  hidden : ∀ v, userPages ≤ v → v < 2 ^ 20 → userEntry m k v = 0
  window : entry m k windowPage = 0

/-- The frame at address `va` of `p`. -/
def frameAt (m : Mm) (p va : ℕ) : ℕ := pageOf (entry m p (va / 4096))

/-- The part of one page in `vmspace_copy_to`. -/
def copyPage (curr : ℕ) (src : Buf) (m : Mm) (dstPhys offset done toCopy : ℕ) : Mm :=
  let m := (halVmMap m curr kmappingBase dstPhys 0x2).1
  let window := halVmVirtToPhys m curr kmappingBase
  let m := { m with mem := memcpy m.mem (window + offset) src done toCopy }
  halVmUnmap m curr kmappingBase

section
variable {m m' : Mm} {k : ℕ} {V : Finset ℕ} {p q v f off n curr va : ℕ}

theorem copyToLoop_eq (curr p : ℕ) (src : Buf) (m : Mm) (dst done : ℕ) {rem : ℕ} (h : rem ≠ 0) :
    copyToLoop curr p src m dst done rem =
      let toCopy := min (4096 - dst % 4096) rem
      if halVmVirtToPhys m p (alignDown dst) = 0 then (m, false)
      else copyToLoop curr p src
        (copyPage curr src m (halVmVirtToPhys m p (alignDown dst)) (dst % 4096) done toCopy)
        ((dst + toCopy) % 2 ^ 32) (done + toCopy) (rem - toCopy) := by
  rw [copyToLoop, dif_neg h]
  rfl

theorem halVmMap_present (hv : v + 1 < 2 ^ 20) (hpr : isPresent (word m p (v / 1024)))
    (h0 : pageOf (word m p (v / 1024)) ≠ 0) {pa : ℕ} (hpa : pa < 2 ^ 32) (fl : ℕ) :
    halVmMap m p (v * 4096) pa fl = (setWord m (pageOf (word m p (v / 1024))) (v % 1024)
      (makePte pa (publicFlagsToArchFlags fl)), true) := by
  have e : (pa + 0 * 4096) % 2 ^ 32 = pa := by omega
  rw [halVmMap_eq m p pa fl hv, mapPageTableRange, getOrCreatePageTable, if_pos hpr]
  simp only [if_neg h0, fillPageTableEntries, List.range_one, List.foldl_cons, List.foldl_nil, e,
    Nat.add_zero (v % 1024)]

theorem halVmUnmap_present (hv : v + 1 < 2 ^ 20) (hpr : isPresent (word m p (v / 1024)))
    (he : isPresent (word m (pageOf (word m p (v / 1024))) (v % 1024))) :
    halVmUnmap m p (v * 4096) = setWord m (pageOf (word m p (v / 1024))) (v % 1024) 0 := by
  have hn : ¬ (v % 1024 = 0 ∧ 1 = 1024) := by omega
  rw [halVmUnmap_eq m p hv, unmapPageTableRange, hpr]
  simp only [Bool.not_true, Bool.false_eq_true, if_false, if_neg hn, clearPageTableEntries,
    List.range_one, List.foldl_cons, List.foldl_nil, Nat.add_zero (v % 1024), if_pos he]

/-- **A change of one entry** in a page table that exists. -/
theorem Dirs.set_entry (h : Dirs m k V) (hp : p ∈ dirsOf k V) (hv : v < 2 ^ 20)
    (hpr : isPresent (word m p (v / 1024))) (hw : w < 2 ^ 32)
    (hm : m' = setWord m (pageOf (word m p (v / 1024))) (v % 1024) w) :
    Dirs m' k V ∧ (∀ q ∈ dirsOf k V, ∀ i < 1024, word m' q i = word m q i) ∧
      ∀ q ∈ dirsOf k V, ∀ u < 2 ^ 20, entry m' q u =
        if u = v ∧ procHome k q (v / 1024) = procHome k p (v / 1024) then cut w
        else entry m q u := by
  subst hm
  have hi : v / 1024 < 1024 := by omega
  have hj : v % 1024 < 1024 := Nat.mod_lt _ (by norm_num)
  have hpmm : (setWord m (pageOf (word m p (v / 1024))) (v % 1024) w).pmm = m.pmm := rfl
  obtain ⟨h1, h2, h3⟩ := h.tables.table_write hp hi hpr hpmm fun a ha => setWord_mem hj ha
  refine ⟨⟨h1, h.kernel, fun i hi' => ?_, fun i g1 g2 => ?_⟩, h2, fun q hq u hu => ?_⟩
  · rw [h2 k (.inl rfl) i (by omega)]; exact h.lower i hi'
  · rw [h2 k (.inl rfl) i g2]; exact h.upper i g1 g2
  rw [h3 q hq u hu]
  by_cases hs : u / 1024 = v / 1024 ∧ procHome k q (v / 1024) = procHome k p (v / 1024)
  · have hk : u % 1024 < 1024 := Nat.mod_lt _ (by norm_num)
    rw [if_pos hs, word_setWord (pageOf_aligned _) (pageOf_aligned _) hj hk hw]
    by_cases huv : u = v
    · rw [if_pos ⟨rfl, by rw [huv]⟩, if_pos ⟨huv, hs.2⟩]
    · rw [if_neg fun e => huv (by omega), if_neg fun e => huv e.1]
      exact (h.tables.entry_eq hp hq hi hpr hs.1 hs.2).symm
  · rw [if_neg hs, if_neg fun e => hs ⟨by rw [e.1], e.2⟩]

theorem Dirs.kernel_entry (h : Dirs m k V) (hcd : curr ∈ dirsOf k V) (hv1 : userPages ≤ v)
    (hv2 : v < 2 ^ 20) (hw : w < 2 ^ 32) :
    ∃ t, t = pageOf (word m curr (v / 1024)) ∧ isPresent (word m curr (v / 1024)) ∧ t ≠ 0 ∧
      IsTable m (dirsOf k V) (procHome k) t ∧ t % 4096 = 0 ∧
      Dirs (setWord m t (v % 1024) w) k V ∧
      (∀ q ∈ dirsOf k V, ∀ i < 1024, word (setWord m t (v % 1024) w) q i = word m q i) ∧
      ∀ q ∈ dirsOf k V, ∀ u < 2 ^ 20, entry (setWord m t (v % 1024) w) q u =
        if u = v then cut w else entry m q u := by
  have hi : v / 1024 < 1024 := by omega
  have hu : 768 ≤ v / 1024 := by rw [userPages] at hv1; omega
  have hpr : isPresent (word m curr (v / 1024)) := by
    rw [h.tables.shared curr hcd _ hi, procHome_upper hu]
    exact h.upper _ hu hi
  obtain ⟨h1, h2, h3⟩ := h.set_entry hcd hv2 hpr hw rfl
  refine ⟨_, rfl, hpr, (h.tables.table_held hcd hi hpr).isFrame.ne_zero,
    h.tables.table_isTable hcd hi hpr, pageOf_aligned _, h1, h2, fun q hq u hu' => ?_⟩
  have hh : procHome k q (v / 1024) = procHome k curr (v / 1024) := by
    rw [procHome_upper hu, procHome_upper hu]
  rw [h3 q hq u hu']
  simp only [hh, and_true]

theorem Dirs.entry_upper (h : Dirs m k V) (hq : q ∈ dirsOf k V) (hv1 : userPages ≤ v)
    (hv2 : v < 2 ^ 20) : entry m q v = entry m k v := by
  have hu : 768 ≤ v / 1024 := by rw [userPages] at hv1; omega
  unfold entry
  rw [h.tables.shared q hq _ (by omega), procHome_upper hu]

theorem virtToPhys_of_mapped (h : entry m q (va / 4096) ≠ 0) :
    halVmVirtToPhys m q va = frameAt m q va + va % 4096 := by
  rw [virtToPhys_eq, if_neg h, frameAt]

/-! ## The window -/

/-- While frame `f` is mapped at the window: `t` is the page table with the window's entry. -/
structure OpenWindow (k : ℕ) (V : Finset ℕ) (curr f t : ℕ) (m m₁ : Mm) : Prop where
  table : IsTable m (dirsOf k V) (procHome k) t
  slot : t = pageOf (word m curr (windowPage / 1024))
  aligned : t % 4096 = 0
  opened : ∃ w, isPresent w = true ∧ w < 2 ^ 32 ∧ m₁ = setWord m t (windowPage % 1024) w
  dirs : Dirs m₁ k V
  pde : ∀ q ∈ dirsOf k V, ∀ i < 1024, word m₁ q i = word m q i
  others : ∀ q ∈ dirsOf k V, ∀ u < 2 ^ 20, u ≠ windowPage → entry m₁ q u = entry m q u
  frame : entry m₁ curr windowPage ≠ 0 ∧ pageOf (entry m₁ curr windowPage) = f

/-- **The window is opened.** -/
theorem Dirs.open_window (h : Dirs m k V) (hc : curr ∈ dirsOf k V) (hfa : f % 4096 = 0)
    (hf32 : f < 2 ^ 32) :
    ∃ t m₁, halVmMap m curr kmappingBase f 0x2 = (m₁, true) ∧ OpenWindow k V curr f t m m₁ := by
  have ek : kmappingBase = windowPage * 4096 := by decide
  have hw2 : windowPage < 2 ^ 20 := by decide
  have hwp : isPresent (makePte f (publicFlagsToArchFlags 0x2)) := isPresent_makePte ..
  have hw32 : makePte f (publicFlagsToArchFlags 0x2) < 2 ^ 32 := makePte_lt hfa hf32
  obtain ⟨t, et, hpr, ht0, htt, hta, d1, p1, e1⟩ := h.kernel_entry hc (by decide) hw2 hw32
  refine ⟨t, setWord m t (windowPage % 1024) (makePte f (publicFlagsToArchFlags 0x2)), ?_, htt, et,
    hta, ⟨_, hwp, hw32, rfl⟩, d1, p1, fun q hq u hu hne => (e1 q hq u hu).trans (if_neg hne), ?_⟩
  · rw [ek, halVmMap_present (by decide) hpr (et ▸ ht0) hf32, ← et]
  · rw [e1 curr hc windowPage hw2, if_pos rfl, cut_of_isPresent hwp]
    exact ⟨makePte_ne_zero _ _, pageOf_makePte hfa⟩

section
variable (h : OpenWindow k V curr f t m m₁)
include h

theorem OpenWindow.isTable (a : ℕ) :
    IsTable m₁ (dirsOf k V) (procHome k) a ↔ IsTable m (dirsOf k V) (procHome k) a :=
  IsTable.congr h.pde

theorem OpenWindow.window (hj : j < 4096) : entry m₁ curr ((kmappingBase + j) / 4096) ≠ 0 ∧
      frameAt m₁ curr (kmappingBase + j) = f ∧
      halVmVirtToPhys m₁ curr (kmappingBase + j) = f + j := by
  have e1 : (kmappingBase + j) / 4096 = windowPage := by
    simp only [kmappingBase, windowPage]; omega
  have e2 : (kmappingBase + j) % 4096 = j := by
    simp only [kmappingBase]; omega
  have hf : frameAt m₁ curr (kmappingBase + j) = f := by rw [frameAt, e1]; exact h.frame.2
  rw [e1]
  refine ⟨h.frame.1, hf, ?_⟩
  rw [virtToPhys_of_mapped (by rw [e1]; exact h.frame.1), hf, e2]

theorem OpenWindow.elsewhere (hq : q ∈ dirsOf k V) (hva : va < 2 ^ 32)
    (hne : va / 4096 ≠ windowPage) :
    entry m₁ q (va / 4096) = entry m q (va / 4096) ∧ frameAt m₁ q va = frameAt m q va ∧
      halVmVirtToPhys m₁ q va = halVmVirtToPhys m q va := by
  have e := h.others q hq (va / 4096) (by omega) hne
  refine ⟨e, ?_, ?_⟩
  · rw [frameAt, frameAt, e]
  · rw [virtToPhys_eq, virtToPhys_eq, e]

theorem OpenWindow.mem {a : ℕ} (ha : ¬ (t ≤ a ∧ a < t + 4096)) : m₁.mem a = m.mem a := by
  obtain ⟨w, -, -, rfl⟩ := h.opened
  exact setWord_mem (by decide) ha

/-- **The window is closed** after changes outside its page table. -/
theorem OpenWindow.close {m2 : Mm} (hd : Dirs m k V) (hcd : curr ∈ dirsOf k V)
    (hwin : entry m k windowPage = 0) (h2 : SameMaps k V m₁ m2) (ht : SameFrame m₁ m2 t) :
    halVmUnmap m2 curr kmappingBase = setWord m2 t (windowPage % 1024) 0 ∧
      SameMaps k V m (setWord m2 t (windowPage % 1024) 0) := by
  have hw1 : userPages ≤ windowPage := by decide
  have hw2 : windowPage < 2 ^ 20 := by decide
  have ek : kmappingBase = windowPage * 4096 := by decide
  obtain ⟨w, hwp, hw32, hm1⟩ := h.opened
  obtain ⟨t', et', hpr, -, -, -, d3, p3, e3⟩ := h2.dirs.kernel_entry hcd hw1 hw2 (w := 0)
    (by norm_num)
  obtain rfl : t' = t := by
    rw [et', h.slot, h2.pde curr hcd _ (by decide), h.pde curr hcd _ (by decide)]
  have hword : word m2 t' (windowPage % 1024) = w := by
    rw [ht.word (by decide), hm1, word_setWord h.aligned h.aligned (by decide) (by decide) hw32,
      if_pos ⟨rfl, rfl⟩]
  have hpde : ∀ q ∈ dirsOf k V, ∀ i < 1024,
      word (setWord m2 t' (windowPage % 1024) 0) q i = word m q i := fun q hq i hi => by
    rw [p3 q hq i hi, h2.pde q hq i hi, h.pde q hq i hi]
  refine ⟨?_, d3, fun a => IsTable.congr hpde, hpde, fun q hq v hv => ?_⟩
  · rw [ek, halVmUnmap_present (by decide) hpr (by rw [← et', hword]; exact hwp), ← et']
  · rw [e3 q hq v hv]
    by_cases hvw : v = windowPage
    · rw [if_pos hvw, hvw, hd.entry_upper hq hw1 hw2, hwin]
      rfl
    · rw [if_neg hvw, h2.entry q hq v hv, h.others q hq v hv hvw]

end

/-- **One page of the copy** changes bytes of its frame only. -/
theorem copyPage_spec (h : Dirs m k V) (hc : curr ∈ V) (hwin : entry m k windowPage = 0)
    (hf : ¬ IsTable m (dirsOf k V) (procHome k) f) (hfa : f % 4096 = 0) (hf32 : f < 2 ^ 32)
    (hoff : off + n ≤ 4096) (src : Buf) (done : ℕ) :
    SameMaps k V m (copyPage curr src m f off done n) ∧
      ∀ g, g % 4096 = 0 → ¬ IsTable m (dirsOf k V) (procHome k) g → ∀ j < 4096,
        (copyPage curr src m f off done n).mem (g + j) =
          memcpy m.mem (f + off) src done n (g + j) := by
  have hcd : curr ∈ dirsOf k V := mem_dirsOf hc
  obtain ⟨t, m₁, hopen, ho⟩ := h.open_window hcd hfa hf32
  set m2 : Mm := { m₁ with mem := memcpy m₁.mem (f + off) src done n } with hm2
  have hmem2 : ∀ a, ¬ (f ≤ a ∧ a < f + 4096) → m2.mem a = m₁.mem a := fun a ha =>
    memcpy_out (by omega)
  have hs2 : SameMaps k V m₁ m2 :=
    ho.dirs.data_write (fun ht => hf ((ho.isTable f).1 ht)) hfa rfl hmem2
  have hft : f ≠ t := fun e => hf (e ▸ ho.table)
  obtain ⟨e3, hs3⟩ := ho.close h hcd hwin hs2 fun a h1 h2 =>
    hmem2 a (not_in_frame hfa ho.aligned hft.symm h1 h2)
  have hphys : halVmVirtToPhys m₁ curr kmappingBase = f := (ho.window (j := 0) (by norm_num)).2.2
  have hcopy : copyPage curr src m f off done n = setWord m2 t (windowPage % 1024) 0 := by
    rw [← e3]
    simp only [copyPage, hopen, hphys, hm2]
  rw [hcopy]
  refine ⟨hs3, fun g hg hn j hj => ?_⟩
  -- the page table of the window is another frame
  have hgt : g ≠ t := fun e => hn (e ▸ ho.table)
  have hout := not_in_frame ho.aligned hg hgt (Nat.le_add_right g j) (by omega)
  rw [setWord_mem (by decide) hout]
  simp only [hm2, memcpy, ho.mem hout]

/-! ## The loop -/

/-- Byte `i` of the destination. -/
def destAddr (dst i : ℕ) : ℕ := (dst + i) % 2 ^ 32

/-- After `d` bytes of a copy to `dst`: a byte of a frame without tables is as before if no
    byte of the destination lies there, and one of the source otherwise. -/
structure CopiedTo (k : ℕ) (V : Finset ℕ) (p dst : ℕ) (src : Buf) (m₀ : Mm) (d : ℕ) (m : Mm) :
    Prop where
  maps : SameMaps k V m₀ m
  bytes : ∀ g, g % 4096 = 0 → ¬ IsTable m₀ (dirsOf k V) (procHome k) g → ∀ j < 4096,
    m.mem (g + j) = m₀.mem (g + j) ∧
        (∀ i < d, frameAt m₀ p (destAddr dst i) + destAddr dst i % 4096 ≠ g + j) ∨
      ∃ i < d, frameAt m₀ p (destAddr dst i) + destAddr dst i % 4096 = g + j ∧
        m.mem (g + j) = src i

section
variable {m₀ : Mm} {dst d size rem : ℕ} {src : Buf}

theorem destAddr_chunk (hn : destAddr dst d % 4096 + n ≤ 4096) {i : ℕ} (hi : i < n) :
    destAddr dst (d + i) / 4096 = destAddr dst d / 4096 ∧
      destAddr dst (d + i) % 4096 = destAddr dst d % 4096 + i := by
  unfold destAddr at *
  omega

theorem CopiedTo.chunk (h : CopiedTo k V p dst src m₀ d m) (hc : curr ∈ V)
    (hwin : entry m₀ k windowPage = 0)
    (hf : ¬ IsTable m₀ (dirsOf k V) (procHome k) (frameAt m₀ p (destAddr dst d)))
    (hn : destAddr dst d % 4096 + n ≤ 4096) :
    CopiedTo k V p dst src m₀ (d + n) (copyPage curr src m (frameAt m₀ p (destAddr dst d))
      (destAddr dst d % 4096) d n) := by
  set f := frameAt m₀ p (destAddr dst d) with hfdef
  have hfa : f % 4096 = 0 := pageOf_aligned _
  have hf32 : f < 2 ^ 32 := lt_of_le_of_lt (Nat.div_mul_le_self _ _) (entry_lt m₀ p _)
  obtain ⟨h1, h2⟩ := copyPage_spec h.maps.dirs hc
    ((h.maps.entry k (.inl rfl) windowPage (by decide)).trans hwin)
    (fun ht => hf ((h.maps.table f).1 ht)) hfa hf32 hn src d
  refine ⟨h.maps.trans h1, fun g hg hng j hj => ?_⟩
  rw [h2 g hg (fun ht => hng ((h.maps.table g).1 ht)) j hj]
  have hframe : ∀ i < n, frameAt m₀ p (destAddr dst (d + i)) + destAddr dst (d + i) % 4096 =
      f + destAddr dst d % 4096 + i := fun i hi => by
    obtain ⟨e1, e2⟩ := destAddr_chunk hn hi
    rw [hfdef, frameAt, frameAt, e1, e2, Nat.add_assoc]
  by_cases hin : f + destAddr dst d % 4096 ≤ g + j ∧ g + j < f + destAddr dst d % 4096 + n
  · right
    have hi : g + j - (f + destAddr dst d % 4096) < n := by omega
    refine ⟨d + (g + j - (f + destAddr dst d % 4096)), by omega, ?_, memcpy_in hin.1 hin.2⟩
    rw [hframe _ hi]
    omega
  · rw [memcpy_out (by omega)]
    rcases h.bytes g hg hng j hj with ⟨e, hno⟩ | ⟨i, hi, e1, e2⟩
    · refine .inl ⟨e, fun i hi e' => ?_⟩
      by_cases hid : i < d
      · exact hno i hid e'
      · obtain ⟨i, rfl⟩ : ∃ i', i = d + i' := ⟨i - d, by omega⟩
        rw [hframe i (by omega)] at e'
        omega
    · exact .inr ⟨i, by omega, e1, e2⟩

/-- **The copy loop** goes to its end if all pages are mapped. -/
theorem copyToLoop_spec (hc : curr ∈ V) (hp : p ∈ V) (hwin : entry m₀ k windowPage = 0)
    (hf : ∀ i < size, ¬ IsTable m₀ (dirsOf k V) (procHome k) (frameAt m₀ p (destAddr dst i))) :
    ∀ rem d m, d + rem = size → CopiedTo k V p dst src m₀ d m →
      ((copyToLoop curr p src m (destAddr dst d) d rem).2 ↔
        ∀ i, d ≤ i → i < size → frameAt m₀ p (destAddr dst i) ≠ 0) ∧
      ((copyToLoop curr p src m (destAddr dst d) d rem).2 →
        CopiedTo k V p dst src m₀ size (copyToLoop curr p src m (destAddr dst d) d rem).1) := by
  intro rem
  induction rem using Nat.strong_induction_on with
  | _ rem ih =>
  intro d m hd h
  by_cases h0 : rem = 0
  · subst h0
    obtain rfl : d = size := by omega
    rw [copyToLoop, dif_pos rfl]
    exact ⟨iff_of_true rfl fun i h1 h2 => absurd h2 (by omega), fun _ => h⟩
  have hlt : destAddr dst d < 2 ^ 32 := Nat.mod_lt _ (by norm_num)
  have hphys : halVmVirtToPhys m p (alignDown (destAddr dst d)) =
      frameAt m₀ p (destAddr dst d) := by
    have e1 : alignDown (destAddr dst d) / 4096 = destAddr dst d / 4096 := by rw [alignDown]; omega
    have e2 : alignDown (destAddr dst d) % 4096 = 0 := by rw [alignDown]; omega
    rw [virtToPhys_eq, e1, e2, h.maps.entry p (mem_dirsOf hp) _ (by omega), Nat.add_zero, frameAt]
    split_ifs with hz
    · rw [hz]; rfl
    · rfl
  rw [copyToLoop_eq _ _ _ _ _ _ h0, hphys]
  simp only
  by_cases hz : frameAt m₀ p (destAddr dst d) = 0
  · rw [if_pos hz]
    refine ⟨iff_of_false Bool.false_ne_true fun hall => hall d le_rfl (by omega) hz,
      fun e => absurd e Bool.false_ne_true⟩
  rw [if_neg hz]
  obtain ⟨n, hn⟩ : ∃ n, min (4096 - destAddr dst d % 4096) rem = n := ⟨_, rfl⟩
  rw [hn]
  have hn1 : 0 < n ∧ n ≤ rem ∧ destAddr dst d % 4096 + n ≤ 4096 := by omega
  have e3 : (destAddr dst d + n) % 2 ^ 32 = destAddr dst (d + n) := by unfold destAddr; omega
  obtain ⟨h1, h2⟩ := ih (rem - n) (by omega) (d + n) _ (by omega)
    (h.chunk hc hwin (hf d (by omega)) hn1.2.2)
  rw [e3]
  refine ⟨h1.trans ⟨fun hall i g1 g2 => ?_, fun hall i g1 g2 => hall i (by omega) g2⟩, h2⟩
  by_cases hi : d + n ≤ i
  · exact hall i hi g2
  · obtain ⟨i, rfl⟩ : ∃ i', i = d + i' := ⟨i - d, by omega⟩
    rw [frameAt, (destAddr_chunk hn1.2.2 (i := i) (by omega)).1]
    exact hz

end

/-! ## What another process sees -/

theorem userEntry_eq (h : userEntry m p v ≠ 0) : userEntry m p v = entry m p v := by
  unfold userEntry at h ⊢
  split_ifs at h ⊢ with hc
  · rfl
  · exact absurd rfl h

theorem SameMaps.userEntry (h : SameMaps k V m m') (hq : q ∈ dirsOf k V) (hv : v < 2 ^ 20) :
    userEntry m' q v = userEntry m q v := by
  unfold Kabanos.userEntry
  rw [h.pde q hq _ (by omega), h.entry q hq v hv]

theorem Closed.userEntry_user (h : Closed m k V) (hq : q ∈ V) (hv : v < 2 ^ 20)
    (he : userEntry m q v ≠ 0) : v < userPages := by
  by_contra hn
  have h1 : 768 ≤ v / 1024 := by rw [userPages] at hn; omega
  refine he (.trans ?_ (h.hidden v (not_lt.1 hn) hv))
  rw [userEntry, userEntry, h.entry_upper (mem_dirsOf hq) (not_lt.1 hn) hv,
    h.tables.shared q (mem_dirsOf hq) _ (by omega), procHome_upper h1]

theorem Closed.userEntry_plain (h : Closed m k V) (hq : q ∈ V) (hv : v < 2 ^ 20)
    (he : userEntry m q v ≠ 0) :
    ¬ IsTable m (dirsOf k V) (procHome k) (pageOf (userEntry m q v)) := by
  have hu := h.userEntry_user hq hv he
  have e := userEntry_eq he
  rw [e] at he ⊢
  exact (h.data q hq v hu he).2

section
variable {dst size : ℕ}

/-- **Copies into a process and what another one reads.**  Whatever the source holds, a
    successful `vmspace_copy_to` into `p` changes no byte that `q` can read, just when no
    page of the destination has a frame that `q` can read. -/
theorem copy_to_unseen_iff (h : Closed m k V) (hc : curr ∈ V) (hp : p ∈ V) (hq : q ∈ V)
    (hdst : dst < 2 ^ 32)
    (hplain : ∀ i < size, ¬ IsTable m (dirsOf k V) (procHome k) (frameAt m p (destAddr dst i))) :
    (∀ src, (vmspaceCopyTo m curr p dst src size).2 = true → ∀ va < 2 ^ 32,
      userRead (vmspaceCopyTo m curr p dst src size).1 q va = userRead m q va) ↔
    ((∀ i < size, frameAt m p (destAddr dst i) ≠ 0) → ∀ i < size, ∀ v < 2 ^ 20,
      userEntry m q v ≠ 0 → pageOf (userEntry m q v) ≠ frameAt m p (destAddr dst i)) := by
  have e0 : destAddr dst 0 = dst := Nat.mod_eq_of_lt hdst
  have hcopy : ∀ src, ((vmspaceCopyTo m curr p dst src size).2 = true ↔
      ∀ i < size, frameAt m p (destAddr dst i) ≠ 0) ∧
        ((vmspaceCopyTo m curr p dst src size).2 = true →
          CopiedTo k V p dst src m size (vmspaceCopyTo m curr p dst src size).1) := fun src => by
    obtain ⟨h1, h2⟩ := copyToLoop_spec hc hp h.window hplain size 0 m (Nat.zero_add _)
      (⟨.refl h.toDirs, fun g _ _ j _ => .inl ⟨rfl, fun i hi => absurd hi (Nat.not_lt_zero i)⟩⟩ :
        CopiedTo k V p dst src m 0 m)
    rw [e0] at h1 h2
    exact ⟨h1.trans ⟨fun hall i hi => hall i (Nat.zero_le i) hi, fun hall i _ hi => hall i hi⟩, h2⟩
  constructor
  · -- a byte that differs from what is there
    intro hun hall i hi v hv hne heq
    set a := pageOf (userEntry m q v) + destAddr dst i % 4096 with ha
    obtain ⟨c, hcne⟩ : ∃ c : UInt8, c ≠ m.mem a := by
      by_cases e : m.mem a = 0
      · exact ⟨1, by rw [e]; decide⟩
      · exact ⟨0, Ne.symm e⟩
    have hok := (hcopy fun _ => c).1.2 hall
    have hcp := (hcopy fun _ => c).2 hok
    have hj : destAddr dst i % 4096 < 4096 := Nat.mod_lt _ (by norm_num)
    have hread := hun (fun _ => c) hok (v * 4096 + destAddr dst i % 4096) (by omega)
    have e1 : (v * 4096 + destAddr dst i % 4096) / 4096 = v := by omega
    have e2 : (v * 4096 + destAddr dst i % 4096) % 4096 = destAddr dst i % 4096 := by omega
    rw [userRead, userRead, e1, e2, hcp.maps.userEntry (mem_dirsOf hq) hv, if_neg hne, if_neg hne,
      ← ha] at hread
    rcases hcp.bytes _ (pageOf_aligned _) (h.userEntry_plain hq hv hne) _ hj with
      ⟨-, hno⟩ | ⟨_, _, _, e⟩
    · exact hno i hi (by rw [← heq])
    · exact hcne (e.symm.trans (Option.some.inj hread))
  · intro hsep src hok va hva
    have hcp := (hcopy src).2 hok
    have hv : va / 4096 < 2 ^ 20 := by omega
    rw [userRead, userRead, hcp.maps.userEntry (mem_dirsOf hq) hv]
    split_ifs with hne
    · rfl
    have hj : va % 4096 < 4096 := Nat.mod_lt _ (by norm_num)
    rcases hcp.bytes _ (pageOf_aligned _) (h.userEntry_plain hq hv hne) _ hj with
      ⟨e, -⟩ | ⟨i, hi, e, -⟩
    · rw [e]
    · have h1 := hsep ((hcopy src).1.1 hok) i hi _ hv hne
      have h2 : frameAt m p (destAddr dst i) % 4096 = 0 := pageOf_aligned _
      have h3 : pageOf (userEntry m q (va / 4096)) % 4096 = 0 := pageOf_aligned _
      omega

end

/-! ## Two processes -/

theorem Closed.created (h : Closed m k V) (hc : Created k V p m m') : Closed m' k (insert p V) := by
  have hk : k ∈ dirsOf k V := .inl rfl
  refine ⟨h.toSpaces.created hc, fun v h1 h2 => ?_,
    (hc.entry k hk windowPage (by decide)).trans h.window⟩
  rw [userEntry, hc.pde k hk _ (by omega), hc.entry k hk v h2]
  exact h.hidden v h1 h2

theorem Closed.give (h : Closed m k V) (hp : p ∈ V) (hv : v < userPages)
    (hr : (vaAllocPage p fl m (v * 4096)).2) :
    Closed (vaAllocPage p fl m (v * 4096)).1 k V ∧ ∃ w, w ≠ 0 ∧ ¬ m.pmm.Held (pageOf w) ∧
      ∀ q ∈ V, ∀ u < 2 ^ 20, entry (vaAllocPage p fl m (v * 4096)).1 q u =
        if u = v ∧ q = p then w else entry m q u := by
  rcases h.alloc_page hp (userPages_lt hv) fl with ⟨m', e, -⟩ | ⟨m', f, e, hg, hd, he⟩ <;>
    rw [e] at hr ⊢
  · cases hr
  have hk : k ∈ dirsOf k V := .inl rfl
  have hpg : pageOf (makePte f (publicFlagsToArchFlags fl)) = f :=
    pageOf_makePte (hg.frame.aligned h.tables.framed)
  have hupper : ∀ u, userPages ≤ u → u < 2 ^ 20 → entry m' k u = entry m k u := fun u h1 h2 => by
    rw [he k hk u h2, if_neg fun e => by omega]
  refine ⟨⟨h.toSpaces.give hg hd hpg he, fun u h1 h2 => ?_, ?_⟩, _, makePte_ne_zero _ _,
    by rw [hpg]; exact hg.fresh, fun q hq u hu => ?_⟩
  · have h3 : 768 ≤ u / 1024 := by rw [userPages] at h1; omega
    rw [userEntry, hupper u h1 h2, hg.pde k hk _ (by omega) (h.upper _ h3 (by omega))]
    exact h.hidden u h1 h2
  · exact (hupper windowPage (by decide) (by decide)).trans h.window
  · rw [he q (mem_dirsOf hq) u hu, procHome_user hv, procHome_user hv]

theorem bootMm_closed : Closed (bootMm 0 0) 0x1000 ∅ := by
  refine ⟨⟨bootMm_dirs rfl (by norm_num) 0, by simp⟩, fun v h1 h2 => ?_,
    by decide +kernel⟩
  have h3 : 768 ≤ v / 1024 := by rw [userPages] at h1; omega
  have h4 : isUser (word (bootMm 0 0) 0x1000 (v / 1024)) = false := by
    have e := bootMm_word 0 (by norm_num) 0 (i := v / 1024) (by omega)
    rw [Nat.zero_add, if_pos h3, Nat.zero_add, ← page_or (by omega) (by norm_num)] at e
    rw [e, isUser, testBit_page_or (by omega) (by norm_num)]
    rfl
  exact if_neg fun e => Bool.false_ne_true (h4.symm.trans e.1)

/-- Processes `0x102000` and `0x103000` on a machine after boot. -/
def demoPair : Mm := (vmspaceCreate (vmspaceCreate (bootMm 0 0) 0x1000).1 0x1000).1

/-- Each of them gets a page at the same address. -/
def demoOwn : Mm :=
  (vaAllocPage 0x103000 7 (vaAllocPage 0x102000 7 demoPair 0x8048000).1 0x8048000).1

theorem demoPair_closed : Closed demoPair 0x1000 {0x103000, 0x102000} ∧
    ∀ v < userPages, entry demoPair 0x103000 v = 0 := by
  have h1 := bootMm_closed.created
    (bootMm_closed.toDirs.created (p := 0x102000) (by decide +kernel))
  have hc := h1.toDirs.created (p := 0x103000) (by decide +kernel)
  refine ⟨h1.created hc, fun v hv => ?_⟩
  rw [demoPair, hc.empty v (userPages_lt hv).le, if_pos hv]

/-- A copy to a page of the first process, and the page of the second one. -/
theorem copy_to_unseen_own :
    userRead (vmspaceCopyTo demoOwn 0x102000 0x102000 0x8048000 (fun _ => 0xAA) 1).1 0x103000
      0x8048000 = some 0 := by
  have hp : 0x102000 ∈ ({0x103000, 0x102000} : Finset ℕ) := by decide
  have hq : 0x103000 ∈ ({0x103000, 0x102000} : Finset ℕ) := by decide
  obtain ⟨h0, hz⟩ := demoPair_closed
  obtain ⟨h1, w1, hw1, -, e1⟩ := h0.give hp (by decide)
    (by decide +kernel : (vaAllocPage 0x102000 7 _ (0x8048 * 4096)).2 = true)
  obtain ⟨h2, w2, -, hfresh, e2⟩ :=
    h1.give hq (by decide)
      (by decide +kernel : (vaAllocPage 0x103000 7 _ (0x8048 * 4096)).2 = true)
  have hown : Closed demoOwn 0x1000 {0x103000, 0x102000} := h2
  have e : ∀ q ∈ ({0x103000, 0x102000} : Finset ℕ), ∀ u < 2 ^ 20, entry demoOwn q u =
      if u = 0x8048 ∧ q = 0x103000 then w2 else
        if u = 0x8048 ∧ q = 0x102000 then w1 else entry demoPair q u := fun q hq u hu => by
    rw [← e1 q hq u hu]
    exact e2 q hq u hu
  have hf : entry demoOwn 0x102000 0x8048 = w1 := e _ hp _ (by decide)
  have hheld := (h1.data 0x102000 hp 0x8048 (by decide)
    (by rw [e1 _ hp 0x8048 (by decide)]; exact hw1)).1
  rw [e1 _ hp 0x8048 (by decide), if_pos (by decide)] at hheld
  have hdst : ∀ i < 1, frameAt demoOwn 0x102000 (destAddr 0x8048000 i) = pageOf w1 := fun i hi => by
    obtain rfl : i = 0 := by omega
    rw [← hf]
    rfl
  have hplain : ∀ i < 1, ¬ IsTable demoOwn (dirsOf 0x1000 {0x103000, 0x102000}) (procHome 0x1000)
      (frameAt demoOwn 0x102000 (destAddr 0x8048000 i)) := fun i hi => by
    rw [hdst i hi, ← hf]
    exact (hown.data 0x102000 hp _ (by decide) (by rw [hf]; exact hw1)).2
  have hsep : ∀ i < 1, ∀ v < 2 ^ 20, userEntry demoOwn 0x103000 v ≠ 0 →
      pageOf (userEntry demoOwn 0x103000 v) ≠ frameAt demoOwn 0x102000 (destAddr 0x8048000 i) :=
    fun i hi v hv hne heq => by
      have hu := hown.userEntry_user hq hv hne
      rw [hdst i hi, userEntry_eq hne, e _ hq v hv] at heq
      rw [userEntry_eq hne, e _ hq v hv] at hne
      by_cases hv8 : v = 0x8048
      · rw [if_pos ⟨hv8, rfl⟩] at heq
        rw [heq] at hfresh
        exact hfresh hheld
      · -- the other pages are not there
        rw [if_neg fun e => hv8 e.1, if_neg fun e => hv8 e.1] at hne
        exact hne (hz v hu)
  exact ((copy_to_unseen_iff hown hp hp hq (by norm_num) hplain).2 (fun _ => hsep) (fun _ => 0xAA)
    (by decide +kernel) 0x8048000 (by norm_num)).trans (by decide +kernel)

/-- The first one gets a page. -/
def demoParent : Mm := (vaAllocPage 0x102000 7 (vmspaceCreate (bootMm 0 0) 0x1000).1 0x8048000).1

/-- After `vmspace_clone` of it to `0x105000`. -/
def demoFork : Mm :=
  let m := cloneTable
    (setCowEntry (vmspaceCreate demoParent 0x1000).1 0x104000 72) 0x105000 0x102000 32
  ⟨m.pmm, memcpy m.mem (0x105000 + 4 * kernelPdStart) m.mem (0x102000 + 4 * kernelPdStart)
    ((1024 - kernelPdStart) * 4)⟩

theorem cloneTable_sameFrame (hs : s < 1024) (hsa : src % 4096 = 0)
    (hda : dst % 4096 = 0) (hds : dst ≠ src) (hf : (pmmFrameAlloc m.pmm).2 = f)
    (hfa : f % 4096 = 0) (hfs : f ≠ src) : SameFrame m (cloneTable m dst src s) src := by
  intro a h1 h2
  obtain ⟨s', e⟩ : ∃ s', pmmFrameAlloc m.pmm = (s', f) := ⟨_, Prod.ext rfl hf⟩
  simp only [cloneTable, e]
  split_ifs
  · refine (setWord_mem hs (not_in_frame hda hsa hds.symm h1 h2)).trans (memcpy_out ?_)
    have hout := not_in_frame hfa hsa hfs.symm h1 h2
    omega
  · rfl

theorem archClone_of_one (hs : s < 768) (hj : j < 1024)
    (hsa : src % 4096 = 0) (hta : t % 4096 = 0) (hda : dst % 4096 = 0) (hts : t ≠ src)
    (hds : dst ≠ src) (hpr : isPresent (word m src s)) (ht : pageOf (word m src s) = t)
    (h₁ : ∀ i < 768, i ≠ s → isPresent (word m src i) = false)
    (h₂ : ∀ i < 1024, i ≠ j → isPresent (word m t i) = false)
    (hf : (pmmFrameAlloc (setCowEntry m t j).pmm).2 = f) (hfa : f % 4096 = 0) (hfs : f ≠ src) :
    halVmArchClone m dst src =
      ⟨(cloneTable (setCowEntry m t j) dst src s).pmm,
        memcpy (cloneTable (setCowEntry m t j) dst src s).mem (dst + 4 * kernelPdStart)
          (cloneTable (setCowEntry m t j) dst src s).mem (src + 4 * kernelPdStart)
          ((1024 - kernelPdStart) * 4)⟩ := by
  have hsame : SameFrame m (setCowEntry m t j) src := fun a h1 h2 =>
    setCowEntry_mem hj (not_in_frame hta hsa hts.symm h1 h2) m
  have h3 : ∀ i < 768, i ≠ s → isPresent (word (setCowEntry m t j) src i) = false :=
    fun i hi hne => by rw [hsame.word (by omega)]; exact h₁ i hi hne
  have hcow : halVmmSetCow m src = setCowEntry m t j := by
    have hin : (List.range 1024).foldl (fun m j => setCowEntry m t j) m = setCowEntry m t j :=
      foldl_range_one hj (fun i hi => by rw [setCowEntry, h₂ i (by omega) (by omega)]; rfl)
        fun i hi hji => by
          rw [setCowEntry, setCowEntry_word (by omega), h₂ i hi (by omega)]
          rfl
    have hone : (if (!isPresent (word m src s)) = true then m
        else (List.range 1024).foldl (fun m' j => setCowEntry m' (pageOf (word m src s)) j) m) =
          setCowEntry m t j := by
      rw [ht, hpr, if_neg (by decide)]
      exact hin
    rw [halVmmSetCow, foldl_range_one (i := s) (show s < kernelPdStart from hs)
      fun i hi => by rw [h₁ i (by omega) (by omega)]; exact if_pos rfl]
    · exact hone
    · intro i hi hsi
      simp only [hone]
      rw [h3 i hi (by omega)]
      exact if_pos rfl
  have hclone : (List.range kernelPdStart).foldl (fun m i => cloneTable m dst src i)
      (setCowEntry m t j) = cloneTable (setCowEntry m t j) dst src s :=
    foldl_range_one hs (fun i hi => by rw [cloneTable, h3 i (by omega) (by omega)]; rfl)
      fun i hi hsi => by
        have hi' : i < 768 := hi
        have hw : word (cloneTable (setCowEntry m t j) dst src s) src i =
            word (setCowEntry m t j) src i :=
          (cloneTable_sameFrame (by omega) hsa hda hds hf hfa hfs).word (by omega)
        rw [cloneTable, hw, h3 i hi (by omega)]
        rfl
  simp only [halVmArchClone, hcow, hclone]

theorem demoParent_closed : Closed demoParent 0x1000 {0x102000} := by
  have h1 := bootMm_closed.created
    (bootMm_closed.toDirs.created (p := 0x102000) (by decide +kernel))
  have hok : (vaAllocPage 0x102000 7 (vmspaceCreate (bootMm 0 0) 0x1000).1 (0x8048 * 4096)).2 := by
    decide +kernel
  exact (h1.give (by decide) (by decide) hok).1

theorem demoFork_eq : vmspaceClone demoParent 0x1000 ⟨0x102000, []⟩ =
    (demoFork, some ⟨0x105000, []⟩) := by
  have h0 : (vmspaceCreate demoParent 0x1000).2.map Vmspace.arch = some 0x105000 := by
    decide +kernel
  have hpde : ∀ i < 768, i ≠ 32 →
      isPresent (word (vmspaceCreate demoParent 0x1000).1 0x102000 i) = false := by decide +kernel
  have htab : ∀ i < 1024, i ≠ 72 →
      isPresent (word (vmspaceCreate demoParent 0x1000).1 0x104000 i) = false := by decide +kernel
  have h1 : halVmArchClone (vmspaceCreate demoParent 0x1000).1 0x105000 0x102000 = _ :=
    archClone_of_one (t := 0x104000) (s := 32) (j := 72) (f := 0x106000) (by norm_num) (by norm_num)
      rfl rfl rfl (by norm_num) (by norm_num) (by decide +kernel) (by decide +kernel) hpde htab
      (by decide +kernel) rfl (by norm_num)
  obtain ⟨vm, e, hvm⟩ := Option.map_eq_some_iff.1 h0
  rw [vmspaceClone, show vmspaceCreate demoParent 0x1000 =
    ((vmspaceCreate demoParent 0x1000).1, some vm) from Prod.ext rfl e]
  simp only [hvm, h1, List.map_nil]
  rfl

/-- A process is cloned and its page written by the kernel: the clone reads the new byte. -/
theorem copy_to_seen_by_clone :
    (vmspaceClone demoParent 0x1000 ⟨0x102000, []⟩).2.map Vmspace.arch = some 0x105000 ∧
    (vmspaceCopyTo (vmspaceClone demoParent 0x1000 ⟨0x102000, []⟩).1 0x102000 0x102000 0x8048000
      (fun _ => 0xAA) 1).2 = true ∧
    userRead (vmspaceClone demoParent 0x1000 ⟨0x102000, []⟩).1 0x105000 0x8048000 = some 0 ∧
    userRead (vmspaceCopyTo (vmspaceClone demoParent 0x1000 ⟨0x102000, []⟩).1 0x102000 0x102000
      0x8048000 (fun _ => 0xAA) 1).1 0x105000 0x8048000 = some 0xAA := by
  rw [demoFork_eq]
  refine ⟨rfl, ?_, ?_, ?_⟩ <;> decide +kernel

end

end Kabanos
