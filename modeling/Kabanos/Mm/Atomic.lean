/-
  Is `va_alloc_region` all-or-nothing?

  It is when it succeeds, unless the region ends at the top of the address space: the end then
  wraps to `0` and no page is given.  When it fails, the pages before the failure are unmapped,
  whatever they were mapped to before, and the page tables made for them stay.

  A region may take pages from under the running kernel, the direct map of the page tables
  among them; what the code does then cannot be said of the page tables alone, so regions are
  asked to keep off such pages (`KernelUses`), and these are shown to stay as they were.
-/
import Kabanos.Mm.UserHalf
import Kabanos.Mm.CopyTo

namespace Kabanos

/-- Page `j` of a region that begins at page `b`. -/
def regionPage (b j : ℕ) : ℕ := (b + j) % 2 ^ 20

/-- **All or nothing**, for the region of `n` pages from page `b` on. -/
structure AllOrNothing (m : Mm) (p b n fl : ℕ) : Prop where
  maps : (vaAllocRegion m p (b * 4096) (n * 4096) fl).2 = false → ∀ va < 2 ^ 32,
    halVmVirtToPhys (vaAllocRegion m p (b * 4096) (n * 4096) fl).1 p va = halVmVirtToPhys m p va
  free : (vaAllocRegion m p (b * 4096) (n * 4096) fl).2 = false →
    frameGetFreeCount (vaAllocRegion m p (b * 4096) (n * 4096) fl).1.pmm = frameGetFreeCount m.pmm
  fresh : (vaAllocRegion m p (b * 4096) (n * 4096) fl).2 = true → ∀ j < n, ∃ f, f ≠ 0 ∧
    halVmVirtToPhys (vaAllocRegion m p (b * 4096) (n * 4096) fl).1 p (regionPage b j * 4096) = f ∧
      ¬ m.pmm.Held f ∧ (vaAllocRegion m p (b * 4096) (n * 4096) fl).1.pmm.Held f
  own : (vaAllocRegion m p (b * 4096) (n * 4096) fl).2 = true → ∀ j < n, ∀ j' < n,
    halVmVirtToPhys (vaAllocRegion m p (b * 4096) (n * 4096) fl).1 p (regionPage b j * 4096) =
      halVmVirtToPhys (vaAllocRegion m p (b * 4096) (n * 4096) fl).1 p (regionPage b j' * 4096) →
        j = j'

/-- The region ends below the top of the address space; and there are frames for all of it and for
    the page tables it lacks, or each page for which there are has its table and is not mapped. -/
def Restorable (m : Mm) (p b n : ℕ) : Prop :=
  n = 0 ∨ b + n < 2 ^ 20 ∧ (Suffices m p b n ∨ ∀ j < n, Suffices m p b (j + 1) →
    isPresent (word m p ((b + j) / 1024)) = true ∧ entry m p (b + j) = 0)

/-- The kernel itself may be using page `v`: it is in the kernel half, and mapped or part of the
    direct map. -/
def KernelUses (m : Mm) (p v : ℕ) : Prop :=
  userPages ≤ v ∧ (entry m p v ≠ 0 ∨ InDirectMap m (v * 4096))

section
variable {m : Mm} {k : ℕ} {V : Finset ℕ} {D : Set ℕ} {home : ℕ → ℕ → ℕ} {p b i n fl u : ℕ}

theorem Dirs.slots (h : Dirs m k V) (hp : p ∈ dirsOf k V) :
    Slots (dirsOf k V) (procHome k) p m := by
  intro s hs
  rcases hp with rfl | hp
  · by_cases hl : s < 768
    · refine .inl ⟨procHome_lower hl .., fun q _ hq => ?_⟩
      rwa [procHome_lower hl] at hq
    · exact .inr (h.upper s (by omega) hs)
  · exact h.slot hp hs

/-! ## Which pages are given -/

theorem missing_mono (m : Mm) (p b : ℕ) (h : i ≤ n) : missing m p b i ⊆ missing m p b n :=
  Finset.filter_subset_filter _ (Finset.image_subset_image (Finset.range_subset_range.2 h))

theorem Suffices.mono (h : Suffices m p b n) (hi : i ≤ n) : Suffices m p b i := by
  have := Finset.card_le_card (missing_mono m p b hi)
  unfold Suffices at h ⊢
  omega

theorem missing_eq_empty :
    (missing m p b i).card = 0 ↔ ∀ j < i, isPresent (word m p ((b + j) / 1024)) := by
  rw [Finset.card_eq_zero, missing, Finset.filter_eq_empty_iff]
  constructor
  · intro h j hj
    exact not_not.1 (h (Finset.mem_image.2 ⟨j, Finset.mem_range.2 hj, rfl⟩))
  · intro h s hs
    obtain ⟨j, hj, rfl⟩ := Finset.mem_image.1 hs
    exact not_not.2 (h j (Finset.mem_range.1 hj))

theorem suffices_lt (h1 : Suffices m p b i) (h2 : ¬ Suffices m p b (i + 1)) {j : ℕ} :
    Suffices m p b (j + 1) ↔ j < i := by
  constructor
  · intro h
    by_contra hj
    exact h2 (h.mono (by omega))
  · intro h
    exact h1.mono (by omega)

/-! ## The outcomes -/

theorem vaAllocRegion_wrap (hb : b < 2 ^ 20) (hn : n < 2 ^ 20) (hbn : 2 ^ 20 ≤ b + n) (m : Mm)
    (p fl : ℕ) : vaAllocRegion m p (b * 4096) (n * 4096) fl = (m, true) := by
  have e : n * 4096 = sub32 ((b + n - 2 ^ 20) * 4096) (b * 4096) := by
    unfold sub32
    omega
  rw [e]
  exact vaAllocRegion_empty (by omega) (by omega) (by omega) (by omega) m p fl

theorem Undone.entry_eq (hp : p ∈ D) {m1 m3 : Mm} {j : ℕ} (hb : Backed D home p b m j m1)
    (h : Undone D home p b j m1 j m3) (hu : u < 2 ^ 20) :
    entry m3 p u = if b ≤ u ∧ u < b + j then 0 else entry m p u := by
  rw [h.maps p hp u hu]
  simp only [and_true]
  by_cases hin : b ≤ u ∧ u < b + j
  · rw [if_pos hin, if_pos hin]
  · rw [if_neg hin, if_neg hin, hb.rest p hp u hu fun e => hin ⟨e.1, e.2.1⟩]

theorem vaAllocRegion_outside (h : Dirs m k V) (hok : m.pmm.Ok) (hp : p ∈ dirsOf k V)
    (hb : b < 2 ^ 20) (hn : n < 2 ^ 20) (fl : ℕ) (hu : u < 2 ^ 20)
    (hout : ∀ j < n, regionPage b j ≠ u) :
    entry (vaAllocRegion m p (b * 4096) (n * 4096) fl).1 p u = entry m p u := by
  by_cases hbn : b + n < 2 ^ 20
  · have hno : ¬ (b ≤ u ∧ u < b + n) := fun hin =>
      hout (u - b) (by omega) (by rw [regionPage, Nat.add_sub_cancel' hin.1, Nat.mod_eq_of_lt hu])
    rcases vaAllocRegion_counted h.tables hok hp (h.slots hp) hbn fl with
      ⟨-, m', e⟩ | ⟨j, hj, -, -, m1, m2, hbk, hc, hun, e⟩
    · refine (vaAllocRegion_true h.tables hp (h.slots hp) hbn (by rw [e])).rest p hp u hu ?_
      exact fun hin => hno ⟨hin.1, hin.2.1⟩
    · rw [e, (vaClean_undone hbk hc.ok hun hp (by omega)).entry_eq hp hbk hu, if_neg]
      exact fun hin => hno ⟨hin.1, by omega⟩
  · rw [vaAllocRegion_wrap hb hn (by omega)]

theorem Backed.allOrNothing (hbn : b + n < 2 ^ 20)
    (ht : (vaAllocRegion m p (b * 4096) (n * 4096) fl).2)
    (h : Backed D home p b m n (vaAllocRegion m p (b * 4096) (n * 4096) fl).1) :
    AllOrNothing m p b n fl := by
  have hphys : ∀ j < n, halVmVirtToPhys (vaAllocRegion m p (b * 4096) (n * 4096) fl).1 p
      (regionPage b j * 4096) =
        pageOf (entry (vaAllocRegion m p (b * 4096) (n * 4096) fl).1 p (b + j)) := fun j hj => by
    have e : regionPage b j = b + j := Nat.mod_eq_of_lt (by omega)
    rw [e, virtToPhys_eq, Nat.mul_div_cancel _ (by norm_num), Nat.mul_mod_left, Nat.add_zero,
      if_neg (h.mapped j hj)]
  refine ⟨fun hf => ?_, fun hf => ?_, fun _ j hj => ?_, fun _ j hj j' hj' e => ?_⟩
  · rw [ht] at hf; cases hf
  · rw [ht] at hf; cases hf
  · exact ⟨_, (h.held j hj).isFrame.ne_zero, hphys j hj, h.fresh j hj, h.held j hj⟩
  · rw [hphys j hj, hphys j' hj'] at e
    exact h.inj j hj j' hj' e

theorem Undone.allOrNothing_iff (hp : p ∈ D) {m1 m3 : Mm} {j : ℕ} (hbj : b + j < 2 ^ 20)
    (hb : Backed D home p b m j m1) (hc : Spent p b m j m1) (h : Undone D home p b j m1 j m3)
    (he : vaAllocRegion m p (b * 4096) (n * 4096) fl = (m3, false)) :
    AllOrNothing m p b n fl ↔
      ∀ x < j, isPresent (word m p ((b + x) / 1024)) ∧ entry m p (b + x) = 0 := by
  have hentry : ∀ u < 2 ^ 20, entry m3 p u = if b ≤ u ∧ u < b + j then 0 else entry m p u :=
    fun u hu => h.entry_eq hp hb hu
  have hfree : frameGetFreeCount m3.pmm + (missing m p b j).card = frameGetFreeCount m.pmm := by
    have h1 := h.free
    have h2 := hc.free
    omega
  constructor
  · intro ha x hx
    have hmaps := ha.maps (by rw [he])
    have hcount := ha.free (by rw [he])
    rw [he] at hmaps
    simp only [he] at hcount
    refine ⟨missing_eq_empty.1 (by omega) x hx, ?_⟩
    by_contra hne
    -- an address in the middle of the page had a translation and has none
    have h1 := hmaps ((b + x) * 4096 + 1) (by omega)
    have hdiv : ((b + x) * 4096 + 1) / 4096 = b + x := by omega
    have hmod : ((b + x) * 4096 + 1) % 4096 = 1 := by omega
    rw [virtToPhys_eq, virtToPhys_eq, hdiv, hmod, hentry (b + x) (by omega),
      if_pos (show b ≤ b + x ∧ b + x < b + j by omega), if_pos rfl, if_neg hne] at h1
    omega
  · intro ha
    have hsame : ∀ u < 2 ^ 20, entry m3 p u = entry m p u := fun u hu => by
      rw [hentry u hu]
      by_cases hin : b ≤ u ∧ u < b + j
      · rw [if_pos hin]
        have h1 := (ha (u - b) (by omega)).2
        rw [Nat.add_sub_cancel' hin.1] at h1
        exact h1.symm
      · rw [if_neg hin]
    have hzero := missing_eq_empty.2 fun x hx => (ha x hx).1
    refine ⟨fun _ va hva => ?_, fun _ => ?_, fun ht => ?_, fun ht => ?_⟩
    · rw [he, virtToPhys_eq, virtToPhys_eq, hsame _ (by omega)]
    · simp only [he]; omega
    · rw [he] at ht; cases ht
    · rw [he] at ht; cases ht

theorem allOrNothing_iff_restorable (h : Dirs m k V) (hok : m.pmm.Ok) (hp : p ∈ dirsOf k V)
    (hb : b < 2 ^ 20) (hn : n < 2 ^ 20) (fl : ℕ) :
    AllOrNothing m p b n fl ↔ Restorable m p b n := by
  by_cases hbn : b + n < 2 ^ 20
  · rcases vaAllocRegion_counted h.tables hok hp (h.slots hp) hbn fl with
      ⟨hs, m', e⟩ | ⟨j, hj, h1, h2, m1, m2, hbk, hc, hu, e⟩
    · have ht : (vaAllocRegion m p (b * 4096) (n * 4096) fl).2 = true := by rw [e]
      exact iff_of_true
        ((vaAllocRegion_true h.tables hp (h.slots hp) hbn ht).allOrNothing hbn ht)
        (.inr ⟨hbn, .inl hs⟩)
    · have hbj : b + j < 2 ^ 20 := by omega
      rw [(vaClean_undone hbk hc.ok hu hp hbj).allOrNothing_iff hp hbj hbk hc e]
      constructor
      · intro ha
        exact .inr ⟨hbn, .inr fun x _ hx => ha x ((suffices_lt h1 h2).1 hx)⟩
      · rintro (rfl | ⟨-, hs | ha⟩) x hx
        · omega
        · exact absurd (hs.mono (by omega)) h2
        · exact ha x (by omega) ((suffices_lt h1 h2).2 hx)
  · by_cases h0 : n = 0
    · omega
    · have e := vaAllocRegion_wrap hb hn (by omega) m p fl
      refine iff_of_false (fun ha => ?_) ?_
      · obtain ⟨f, -, -, h1, h2⟩ := ha.fresh (by rw [e]) 0 (by omega)
        rw [e] at h2
        exact h1 h2
      · rintro (h1 | ⟨h1, -⟩)
        · exact h0 h1
        · exact hbn h1

/-- The process `demoParent` with one free frame left. -/
def demoScarce : Mm :=
  { demoParent with pmm := { demoParent.pmm with
      bitmap := fun j => if j = 32 then 0xDF else 0xFF, usedFrames := 511 } }

end

end Kabanos
