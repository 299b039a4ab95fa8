/-
  The kernel half of all page directories.

  `hal_vm_prealloc_kernel_tables` fills the upper half of the kernel's directory, and every
  other directory begins as a copy of it.  What keeps them in step is that the page tables
  and the directories are different frames, and that the lower half of the kernel's own
  directory is empty, so that no process gets page tables of the kernel with its copy.
  A slot may point to address `0`: `hal_vm_arch_clone` does not check its allocations.
-/
import Kabanos.Mm.Spaces

namespace Kabanos

variable {s n pa va size : ℕ} {J : Mm → Prop}

/-- The directories of the kernel and of the processes `V`, with upper halves `w`. -/
structure Halves (w : ℕ → ℕ) (m : Mm) (k : ℕ) (V : Finset ℕ) : Prop where
  framed : m.pmm.Framed
  kernel : k ∉ V
  dirs : ∀ p ∈ dirsOf k V, m.pmm.Held p
  held : ∀ p ∈ dirsOf k V, ∀ a, holds m (procHome k) p a ≠ 0 →
    m.pmm.Held (holds m (procHome k) p a)
  excl : Exclusive (dirsOf k V) id (holds m (procHome k))
  lower : ∀ i < 768, isPresent (word m k i) = false
  upper : ∀ p ∈ dirsOf k V, ∀ i, 768 ≤ i → i < 1024 → word m p i = w i
  full : ∀ i, 768 ≤ i → i < 1024 → isPresent (w i) = true ∧ pageOf (w i) ≠ 0

section
variable {w : ℕ → ℕ} {m m' : Mm} {k : ℕ} {V : Finset ℕ} {p q i t x : ℕ}

theorem Dirs.halves (h : Dirs m k V) : Halves (word m k) m k V := by
  have hk : k ∈ dirsOf k V := .inl rfl
  refine ⟨h.tables.framed, h.kernel, h.tables.dirs, fun p hp a h0 => h.tables.held hp h0,
    h.tables.excl, h.lower, fun p hp i h1 h2 => ?_, fun i h1 h2 => ⟨h.upper i h1 h2, ?_⟩⟩
  · rw [h.tables.shared p hp i h2, procHome_upper h1]
  · exact (h.tables.table_held hk h2 (h.upper i h1 h2)).isFrame.ne_zero

section
variable (h : Halves w m k V)
include h

theorem Halves.aligned (hp : p ∈ dirsOf k V) : p % 4096 = 0 :=
  (h.dirs p hp).isFrame.aligned h.framed

theorem Halves.ne_zero (hp : p ∈ dirsOf k V) : p ≠ 0 :=
  (h.dirs p hp).isFrame.ne_zero

theorem Halves.present (hp : p ∈ dirsOf k V) (h1 : 768 ≤ i) (h2 : i < 1024) :
    isPresent (word m p i) := by
  rw [h.upper p hp i h1 h2]
  exact (h.full i h1 h2).1

theorem Halves.table_not_dir (hp : p ∈ dirsOf k V) (hi : i < 1024)
    (hpr : isPresent (word m p i)) : pageOf (word m p i) ∉ dirsOf k V := by
  intro hd
  have hne := h.ne_zero hd
  -- the directory that the table belongs to
  obtain ⟨q, hq, hh⟩ : ∃ q ∈ dirsOf k V,
      holds m (procHome k) q (some i) = pageOf (word m p i) := by
    by_cases hl : i < 768
    · exact ⟨p, hp, if_pos ⟨hi, procHome_lower hl k p, hpr⟩⟩
    · have hk : k ∈ dirsOf k V := .inl rfl
      have e : word m k i = word m p i := by
        rw [h.upper k hk i (by omega) hi, h.upper p hp i (by omega) hi]
      refine ⟨k, hk, ?_⟩
      rw [holds, e, if_pos ⟨hi, procHome_upper (by omega) k k, hpr⟩]
  have := (h.excl q hq _ hd (some i) none (by rw [hh]; exact hne) hh).2
  cases this

theorem Halves.congr (hs : SameMemory m.pmm m'.pmm) (hheld : ∀ a, m.pmm.Held a → m'.pmm.Held a)
    (hdir : ∀ p ∈ dirsOf k V, ∀ i < 1024, word m' p i = word m p i) : Halves w m' k V := by
  have hh : ∀ p ∈ dirsOf k V, ∀ a, holds m' (procHome k) p a = holds m (procHome k) p a :=
    fun p hp a => holds_congr (hdir p hp) a
  refine ⟨hs.framed h.framed, h.kernel, fun p hp => hheld p (h.dirs p hp), fun p hp a h0 => ?_,
    h.excl.mono fun p hp a _ => ⟨p, hp, rfl, (hh p hp a).symm⟩, fun i hi => ?_,
    fun p hp i h1 h2 => ?_, h.full⟩
  · rw [hh p hp a] at h0 ⊢
    exact hheld _ (h.held p hp a h0)
  · rw [hdir k (.inl rfl) i (by omega)]; exact h.lower i hi
  · rw [hdir p hp i h2]; exact h.upper p hp i h1 h2

/-- **A write outside the directories.** -/
theorem Halves.write (ht : t % 4096 = 0) (hn : t ∉ dirsOf k V) (hs : SameMemory m.pmm m'.pmm)
    (hheld : ∀ a, m.pmm.Held a → m'.pmm.Held a)
    (hmem : ∀ a, ¬ (t ≤ a ∧ a < t + 4096) → m'.mem a = m.mem a) : Halves w m' k V := by
  refine h.congr hs hheld fun p hp i hi => SameFrame.word (fun a h1 h2 => hmem a ?_) hi
  exact not_in_frame ht (h.aligned hp) (fun e => hn (e ▸ hp)) h1 h2

/-- **A slot of a process changes**: to nothing, to a frame that nobody owns, or to
    address `0`. -/
theorem Halves.set_slot (hp : p ∈ V) (hi : i < 768) (hs : SameMemory m.pmm m'.pmm)
    (hheld : ∀ a, m.pmm.Held a →
      a ≠ pageOf (word m p i) ∨ isPresent (word m p i) = false → m'.pmm.Held a)
    (hdir : ∀ q ∈ dirsOf k V, ∀ j < 1024, word m' q j = if q = p ∧ j = i then x else word m q j)
    (hx : isPresent x → pageOf x ≠ 0 →
      Unowned (dirsOf k V) (holds m (procHome k)) (pageOf x) ∧ m'.pmm.Held (pageOf x)) :
    Halves w m' k V := by
  have hk : k ∈ dirsOf k V := .inl rfl
  have hpd : p ∈ dirsOf k V := mem_dirsOf hp
  have hpk : p ≠ k := fun e => h.kernel (e ▸ hp)
  have hi' : i < 1024 := by omega
  have hother : ∀ q ∈ dirsOf k V, ∀ j < 1024, ¬ (q = p ∧ j = i) → word m' q j = word m q j :=
    fun q hq j hj hn => by rw [hdir q hq j hj, if_neg hn]
  have hhp : holds m' (procHome k) p (some i) = if isPresent x then pageOf x else 0 := by
    have e : word m' p i = x := by rw [hdir p hpd i hi', if_pos ⟨rfl, rfl⟩]
    simp only [holds, e, procHome_lower hi, hi', true_and]
  have hh : ∀ q ∈ dirsOf k V, ∀ a, ¬ (q = p ∧ a = some i) →
      holds m' (procHome k) q a = holds m (procHome k) q a := fun q hq a hn => by
    cases a with
    | none => rfl
    | some j =>
      by_cases hj : j < 1024
      · simp only [holds, hother q hq j hj fun e => hn ⟨e.1, by rw [e.2]⟩]
      · simp only [holds, hj, false_and, if_false]
  -- what is owned by another slot stays held
  have hkeep : ∀ q ∈ dirsOf k V, ∀ a, ¬ (q = p ∧ a = some i) → holds m (procHome k) q a ≠ 0 →
      m'.pmm.Held (holds m (procHome k) q a) := fun q hq a hn h0 => by
    refine hheld _ (h.held q hq a h0) ?_
    by_cases hpr : isPresent (word m p i)
    · refine .inl fun e => hn ?_
      have e' : holds m (procHome k) p (some i) = pageOf (word m p i) :=
        if_pos ⟨hi', procHome_lower hi k p, hpr⟩
      exact h.excl q hq p hpd a (some i) h0 (e.trans e'.symm)
    · exact .inr (Bool.eq_false_iff.2 hpr)
  have hexcl : Exclusive (dirsOf k V) id (holds m' (procHome k)) := by
    by_cases hc : isPresent x ∧ pageOf x ≠ 0
    · refine h.excl.step (t := p) (s := some i) (hx hc.1 hc.2).1 fun q hq a ha => ?_
      by_cases hn : q = p ∧ a = some i
      · obtain ⟨rfl, rfl⟩ := hn
        exact .inr ⟨rfl, rfl, by rw [hhp, if_pos hc.1]⟩
      · exact .inl ⟨q, hq, rfl, (hh q hq a hn).symm⟩
    · refine h.excl.mono fun q hq a ha => ?_
      by_cases hn : q = p ∧ a = some i
      · obtain ⟨rfl, rfl⟩ := hn
        rw [hhp] at ha
        by_cases hpx : isPresent x
        · rw [if_pos hpx] at ha
          exact absurd ⟨hpx, ha⟩ hc
        · rw [if_neg hpx] at ha
          exact absurd rfl ha
      · exact ⟨q, hq, rfl, (hh q hq a hn).symm⟩
  refine ⟨hs.framed h.framed, h.kernel, fun q hq => ?_, fun q hq a h0 => ?_, hexcl, fun j hj => ?_,
    fun q hq j h1 h2 => ?_, h.full⟩
  · exact hkeep q hq none (fun e => by cases e.2) (h.ne_zero hq)
  · by_cases hn : q = p ∧ a = some i
    · obtain ⟨rfl, rfl⟩ := hn
      rw [hhp] at h0 ⊢
      by_cases hpx : isPresent x
      · rw [if_pos hpx] at h0 ⊢
        exact (hx hpx h0).2
      · rw [if_neg hpx] at h0
        exact absurd rfl h0
    · rw [hh q hq a hn] at h0 ⊢
      exact hkeep q hq a hn h0
  · rw [hother k hk j (by omega) fun e => hpk e.1.symm]; exact h.lower j hj
  · rw [hother q hq j h2 fun e => by omega]; exact h.upper q hq j h1 h2

theorem Halves.unowned (ht : ¬ m.pmm.Held t) (h0 : t ≠ 0) :
    Unowned (dirsOf k V) (holds m (procHome k)) t := fun q hq a e =>
  ht (e ▸ h.held q hq a (e ▸ h0))

theorem Halves.link (hp : p ∈ V) (hi : i < 768) (m1 : Mm) (ht : Taken m.pmm m1.pmm t)
    (hmem : ∀ a, ¬ (t ≤ a ∧ a < t + 4096) → m1.mem a = m.mem a) (hx : x < 2 ^ 32)
    (hxt : pageOf x = t) : Halves w (setWord m1 p i x) k V := by
  have hta := ht.frame.aligned h.framed
  have hpa := h.aligned (mem_dirsOf hp)
  refine h.set_slot hp hi ht.same (fun a ha _ => (ht.held a).2 (.inl ha)) (fun q hq j hj => ?_)
    fun _ h0 => ⟨h.unowned (by rw [hxt]; exact ht.fresh) h0, by
      rw [hxt]; exact (ht.held t).2 (.inr rfl)⟩
  rw [word_setWord hpa (h.aligned hq) (by omega) hj hx]
  have hsame : SameFrame m m1 q := fun a h1 h2 => hmem a (not_in_frame hta (h.aligned hq)
    (fun e => ht.fresh (e ▸ h.dirs q hq)) h1 h2)
  rw [hsame.word hj]

/-! ## Mapping and unmapping -/

theorem Halves.fill (ht : t % 4096 = 0) (hn : t ∉ dirsOf k V)
    (hsn : s + n ≤ 1024) (hpa : pa % 4096 = 0) (fl : ℕ) :
    Halves w (fillPageTableEntries m t s n pa fl) k V := by
  obtain ⟨h1, h2, -⟩ := fill_spec (m := m) ht s pa fl hpa n hsn
  exact h.write ht hn (by rw [h1]; exact .refl _) (by rw [h1]; exact fun _ => id) h2

theorem Halves.map_chunk (hp : p ∈ dirsOf k V) (hi : i < 1024)
    (hk : p = k → 768 ≤ i) (hsn : s + n ≤ 1024) (hpa : pa % 4096 = 0) (fl : ℕ) :
    Halves w (mapPageTableRange m p i s n pa fl).1 k V := by
  unfold mapPageTableRange getOrCreatePageTable
  by_cases hpr : isPresent (word m p i)
  · simp only [if_pos hpr]
    split_ifs
    · exact h
    · exact h.fill (pageOf_aligned _) (h.table_not_dir hp hi hpr) hsn hpa fl
  simp only [if_neg hpr]
  have hl : i < 768 := by
    by_contra hn
    exact hpr (h.present hp (by omega) hi)
  have hpV : p ∈ V := hp.resolve_left fun e => by have := hk e; omega
  rcases allocatePageTable_cases m with e | ⟨pmm, t, e, ht⟩ <;> simp only [e]
  · exact h
  have h0 := ht.frame.ne_zero
  have hta := ht.frame.aligned h.framed
  simp only [if_neg h0]
  obtain ⟨hx, hxt⟩ := pde_spec hta (ht.frame.lt h.framed) fl
  have h1 : Halves w (setWord ⟨pmm, memset m.mem t 0 4096⟩ p i
      (t ||| 0x1 ||| 0x2 ||| (fl &&& 0x4))) k V :=
    h.link hpV hl ⟨pmm, memset m.mem t 0 4096⟩ ht (fun a ha => if_neg ha) hx hxt
  have e1 :
      word (setWord ⟨pmm, memset m.mem t 0 4096⟩ p i (t ||| 0x1 ||| 0x2 ||| (fl &&& 0x4))) p i =
      t ||| 0x1 ||| 0x2 ||| (fl &&& 0x4) := by
    rw [word_setWord (h.aligned hp) (h.aligned hp) hi hi hx, if_pos ⟨rfl, rfl⟩]
  have hn := h1.table_not_dir hp hi (by rw [e1]; exact isPresent_pde t fl)
  rw [e1, hxt] at hn
  exact h1.fill hta hn hsn hpa fl

theorem Halves.unmap_chunk (hp : p ∈ dirsOf k V) (hi : i < 1024)
    (hsn : s + n ≤ 1024) (hno : s = 0 ∧ n = 1024 → i < 768) :
    Halves w (unmapPageTableRange m p i s n) k V := by
  unfold unmapPageTableRange
  by_cases hpr : isPresent (word m p i)
  · have hnot : ¬ (!isPresent (word m p i)) := by rw [hpr]; exact Bool.false_ne_true
    rw [if_neg hnot]
    set t := pageOf (word m p i) with ht
    obtain ⟨c1, c2, -⟩ := clear_spec (m := m) (pageOf_aligned (word m p i)) s n hsn
    rw [← ht] at c1 c2
    have hnd := h.table_not_dir hp hi hpr
    set m1 := clearPageTableEntries m t s n with hm1
    have h1 : Halves w m1 k V := h.write (pageOf_aligned _) hnd (by rw [c1]; exact .refl _)
      (by rw [c1]; exact fun _ => id) c2
    have hdir : ∀ q ∈ dirsOf k V, ∀ j < 1024, word m1 q j = word m q j := fun q hq j hj =>
      SameFrame.word (fun a g1 g2 => c2 a (not_in_frame (pageOf_aligned _) (h.aligned hq)
        (fun e => hnd (e ▸ hq)) g1 g2)) hj
    by_cases hw : s = 0 ∧ n = 1024
    · simp only [if_pos hw]
      have hl := hno hw
      have hpV : p ∈ V := hp.resolve_left fun e => by
        rw [e, h.lower i hl] at hpr
        cases hpr
      obtain ⟨f1, f2⟩ := Pmm.free_keeps h1.framed t
      refine h1.set_slot (x := 0) hpV hl f1 (fun a ha hc => ?_) (fun q hq j hj => ?_)
        fun hx => by cases hx
      · rw [hdir p hp i hi] at hc
        refine f2 a ha (hc.resolve_right fun e => ?_)
        rw [hpr] at e
        cases e
      · exact word_setWord (m := { m1 with pmm := pmmFrameFree m1.pmm t }) (h.aligned hp)
          (h.aligned hq) hi hj (by norm_num)
    · simp only [if_neg hw]
      exact h1
  · rw [if_pos (by rw [Bool.eq_false_iff.2 hpr]; rfl)]
    exact h

end

theorem mapLoop_rule {fl : ℕ} : ∀ n b pa m, pa % 4096 = 0 → b + n ≤ 2 ^ 20 →
    (∀ m i s c pa, J m → b / 1024 ≤ i → i < 1024 → s + c ≤ 1024 → pa % 4096 = 0 →
      J (mapPageTableRange m p i s c pa fl).1) →
    J m → J (mapLoop m p (b * 4096) pa n fl).1 := by
  intro n
  induction n using Nat.strong_induction_on with
  | _ n ih =>
    intro b pa m hpa hb hstep hJ
    by_cases hn : n = 0
    · rw [mapLoop, dif_pos hn]
      exact hJ
    obtain ⟨c, hc⟩ : ∃ c, min (1024 - b % 1024) n = c := ⟨_, rfl⟩
    rw [mapLoop_page hn hc]
    have h1 := hstep m (b / 1024) (b % 1024) c pa hJ le_rfl (by omega) (by omega) hpa
    obtain ⟨⟨m1, r⟩, hr⟩ : ∃ r, mapPageTableRange m p (b / 1024) (b % 1024) c pa fl = r := ⟨_, rfl⟩
    rw [hr] at h1 ⊢
    cases r with
    | false => exact h1
    | true =>
      exact ih (n - c) (by omega) (b + c) _ m1 (by omega) (by omega)
        (fun m i s c' pa hJ hi => hstep m i s c' pa hJ (by omega)) h1

theorem unmapLoop_rule : ∀ n b m, b + n ≤ 2 ^ 20 →
    (∀ m i s c, J m → i < 1024 → s + c ≤ 1024 → b ≤ i * 1024 + s → i * 1024 + s + c ≤ b + n →
      J (unmapPageTableRange m p i s c)) →
    J m → J (unmapLoop m p (b * 4096) n) := by
  intro n
  induction n using Nat.strong_induction_on with
  | _ n ih =>
    intro b m hb hstep hJ
    by_cases hn : n = 0
    · rw [unmapLoop, dif_pos hn]
      exact hJ
    obtain ⟨c, hc⟩ : ∃ c, min (1024 - b % 1024) n = c := ⟨_, rfl⟩
    rw [unmapLoop_page hn hc]
    exact ih (n - c) (by omega) (b + c) _ (by omega)
      (fun m i s c' hJ h1 h2 h3 h4 => hstep m i s c' hJ h1 h2 (by omega) (by omega))
      (hstep m (b / 1024) (b % 1024) c hJ (by omega) (by omega) (by omega) (by omega))

/-- **`hal_vm_map_range`**; a range of the kernel's own directory is in the kernel half. -/
theorem Halves.map_range (h : Halves w m k V) (hp : p ∈ dirsOf k V)
    (hpa : pa % 4096 = 0) (hva : va % 4096 = 0) (hva' : va < 2 ^ 32) (hk : p = k → kernelBase ≤ va)
    (fl : ℕ) : Halves w (halVmMapRange m p pa va size fl).1 k V := by
  unfold halVmMapRange
  split_ifs
  · exact h
  obtain ⟨b, rfl⟩ : ∃ b, va = b * 4096 := ⟨va / 4096, by omega⟩
  refine mapLoop_rule (J := fun m => Halves w m k V)
    (((b * 4096 + size) % 2 ^ 32 - b * 4096) / 4096) b pa m hpa (by omega)
    (fun m i s c pa hJ h1 h2 h3 h4 => ?_) h
  refine hJ.map_chunk hp h2 (fun e => ?_) h3 h4 _
  have := hk e
  rw [kernelBase] at this
  omega

/-- No whole page table of the kernel half is in the range: the assertion of
    `unmap_page_table_range` does not stop the machine. -/
def NoWholeTable (va size : ℕ) : Prop :=
  ∀ i, 768 ≤ i → i < 1024 → ¬ (va ≤ i * 2 ^ 22 ∧ (i + 1) * 2 ^ 22 ≤ (va + size) % 2 ^ 32)

/-- **`hal_vm_unmap_range`** -/
theorem Halves.unmap_range (h : Halves w m k V) (hp : p ∈ dirsOf k V)
    (hva : va % 4096 = 0) (hva' : va < 2 ^ 32) (hno : NoWholeTable va size) :
    Halves w (halVmUnmapRange m p va size) k V := by
  unfold halVmUnmapRange
  split_ifs
  · exact h
  obtain ⟨b, rfl⟩ : ∃ b, va = b * 4096 := ⟨va / 4096, by omega⟩
  refine unmapLoop_rule (J := fun m => Halves w m k V)
    (((b * 4096 + size) % 2 ^ 32 - b * 4096) / 4096) b m (by omega)
    (fun m i s c hJ h1 h2 h3 h4 => ?_) h
  refine hJ.unmap_chunk hp h1 h2 fun hw => ?_
  by_contra hi
  have hend := hno i (by omega) h1
  generalize (b * 4096 + size) % 2 ^ 32 = stop at h4 hend
  obtain ⟨rfl, rfl⟩ := hw
  omega

/-! ## Creating and destroying -/

theorem Halves.create (h : Halves w m k V) :
    vmspaceCreate m k = (m, none) ∨ ∃ m' p, vmspaceCreate m k = (m', some ⟨p, []⟩) ∧
      Halves w m' k (insert p V) := by
  have hk : k ∈ dirsOf k V := .inl rfl
  rcases vmspaceCreate_cases h.framed (h.dirs k hk) (h.aligned hk) with
    e | ⟨m', t, e, ht, -, hdir, hnew⟩
  · exact .inl e
  replace hdir := fun q (hq : q ∈ dirsOf k V) => hdir q (h.dirs q hq) (h.aligned hq)
  have hkt : k ≠ t := fun e => ht.fresh (e ▸ h.dirs k hk)
  have hD : ∀ q, q ∈ dirsOf k (insert t V) ↔ q = t ∨ q ∈ dirsOf k V := fun q => by
    simp only [dirsOf, Finset.coe_insert, Set.mem_insert_iff]
    tauto
  have hheld : ∀ a, m.pmm.Held a → m'.pmm.Held a := fun a ha => (ht.held a).2 (.inl ha)
  -- the new directory owns itself only
  have hown : ∀ a, holds m' (procHome k) t a ≠ 0 → a = none := by
    intro a ha
    cases a with
    | none => rfl
    | some i =>
      refine absurd (if_neg ?_) ha
      rintro ⟨hi, hh, hr⟩
      rw [hnew i hi] at hr
      by_cases hl : i < 768
      · rw [h.lower i hl] at hr; cases hr
      · rw [procHome_upper (by omega)] at hh
        exact hkt hh
  have hold : ∀ q ∈ dirsOf k V, ∀ a, holds m' (procHome k) q a =
      holds m (procHome k) q a := fun q hq a => holds_congr (hdir q hq) a
  refine .inr ⟨m', t, e, ht.same.framed h.framed, ?_, fun q hq => ?_, fun q hq a h0 => ?_, ?_,
    fun i hi => ?_, fun q hq i h1 h2 => ?_, h.full⟩
  · rw [Finset.mem_insert, not_or]
    exact ⟨hkt, h.kernel⟩
  · rcases (hD q).1 hq with rfl | hq
    · exact (ht.held q).2 (.inr rfl)
    · exact hheld q (h.dirs q hq)
  · rcases (hD q).1 hq with rfl | hq
    · obtain rfl := hown a h0
      exact (ht.held q).2 (.inr rfl)
    · rw [hold q hq a] at h0 ⊢
      exact hheld _ (h.held q hq a h0)
  · refine h.excl.step (t := t) (s := none)
      (h.unowned ht.fresh ht.frame.ne_zero) fun q hq a ha => ?_
    rcases (hD q).1 hq with rfl | hq
    · obtain rfl := hown a ha
      exact .inr ⟨rfl, rfl, rfl⟩
    · exact .inl ⟨q, hq, rfl, (hold q hq a).symm⟩
  · rw [hdir k hk i (by omega)]; exact h.lower i hi
  · rcases (hD q).1 hq with rfl | hq
    · rw [hnew i h2]; exact h.upper k hk i h1 h2
    · rw [hdir q hq i h2]; exact h.upper q hq i h1 h2

theorem freeTables_spec (hf : m.pmm.Framed) (l : List ℕ) :
    ∃ s, l.foldl (fun m i => if isPresent (word m p i) then
        { m with pmm := pmmFrameFree m.pmm (pageOf (word m p i)) } else m) m = { m with pmm := s } ∧
      SameMemory m.pmm s ∧ ∀ a, m.pmm.Held a →
        (∀ i ∈ l, isPresent (word m p i) → a ≠ pageOf (word m p i)) → s.Held a := by
  induction l generalizing m with
  | nil => exact ⟨m.pmm, rfl, .refl _, fun _ ha _ => ha⟩
  | cons i l ih =>
    rw [List.foldl_cons]
    by_cases hpr : isPresent (word m p i)
    · rw [if_pos hpr]
      obtain ⟨f1, f2⟩ := Pmm.free_keeps hf (pageOf (word m p i))
      obtain ⟨s, e, h1, h2⟩ := ih (m := { m with pmm := pmmFrameFree m.pmm (pageOf (word m p i)) })
        (f1.framed hf)
      refine ⟨s, e, f1.trans h1, fun a ha hn => h2 a (f2 a ha (hn i List.mem_cons_self hpr)) ?_⟩
      exact fun j hj hr => hn j (List.mem_cons_of_mem i hj) hr
    · rw [if_neg hpr]
      obtain ⟨s, e, h1, h2⟩ := ih hf
      exact ⟨s, e, h1, fun a ha hn => h2 a ha fun j hj hr => hn j (List.mem_cons_of_mem i hj) hr⟩

theorem Halves.destroy (h : Halves w m k V) (hp : p ∈ V) :
    Halves w (halVmArchDestroy m p) k (V.erase p) := by
  have hpd : p ∈ dirsOf k V := mem_dirsOf hp
  obtain ⟨s, e, h1, h2⟩ := freeTables_spec (p := p) h.framed (List.range kernelPdStart)
  obtain ⟨f1, f2⟩ := Pmm.free_keeps (h1.framed h.framed) p
  have hd : halVmArchDestroy m p = { m with pmm := pmmFrameFree s p } := by
    unfold halVmArchDestroy
    simp only [e]
  rw [hd]
  have hsub : ∀ q ∈ dirsOf k (V.erase p), q ∈ dirsOf k V ∧ q ≠ p := by
    rintro q (rfl | hq)
    · exact ⟨.inl rfl, fun e => h.kernel (e ▸ hp)⟩
    · exact ⟨.inr (Finset.mem_of_mem_erase hq), Finset.ne_of_mem_erase hq⟩
  -- what another directory owns is none of the frames that are freed
  have hkeep : ∀ q ∈ dirsOf k (V.erase p), ∀ a, holds m (procHome k) q a ≠ 0 →
      (pmmFrameFree s p).Held (holds m (procHome k) q a) := fun q hq a h0 => by
    obtain ⟨hqd, hqp⟩ := hsub q hq
    refine f2 _ (h2 _ (h.held q hqd a h0) fun i hi hr e => ?_) fun e => ?_
    · have hl : i < 768 := List.mem_range.1 hi
      have e' : holds m (procHome k) p (some i) = pageOf (word m p i) :=
        if_pos ⟨by omega, procHome_lower hl k p, hr⟩
      exact hqp (h.excl q hqd p hpd a (some i) h0 (e.trans e'.symm)).1
    · exact hqp (h.excl q hqd p hpd a none h0 e).1
  refine ⟨(h1.trans f1).framed h.framed, fun hk => h.kernel (Finset.mem_of_mem_erase hk),
    fun q hq => hkeep q hq none (h.ne_zero (hsub q hq).1), hkeep,
    h.excl.mono fun q hq a _ => ⟨q, (hsub q hq).1, rfl, rfl⟩, h.lower,
    fun q hq => h.upper q (hsub q hq).1, h.full⟩

/-! ## Cloning -/

theorem refcountInc_same (s : Pmm) (a : ℕ) :
    SameMemory s (pmmFrameRefcountInc s a) ∧ (pmmFrameRefcountInc s a).bitmap = s.bitmap := by
  unfold pmmFrameRefcountInc
  by_cases h : a / 4096 < s.totalFrames
  · simp only [if_pos h]
    exact ⟨⟨rfl, rfl⟩, trivial⟩
  · simp only [if_neg h]
    exact ⟨.refl s, trivial⟩

theorem setCowEntry_pmm (m : Mm) (t j : ℕ) :
    SameMemory m.pmm (setCowEntry m t j).pmm ∧ (setCowEntry m t j).pmm.bitmap = m.pmm.bitmap := by
  unfold setCowEntry
  by_cases h1 : (!isPresent (word m t j))
  · rw [if_pos h1]
    exact ⟨.refl _, rfl⟩
  · rw [if_neg h1]
    by_cases h2 : isReadWrite (word m t j)
    · simp only [if_pos h2]
      exact refcountInc_same m.pmm _
    · simp only [if_neg h2]
      exact refcountInc_same m.pmm _

theorem Halves.setCowEntry (h : Halves w m k V) (ht : t % 4096 = 0) (hn : t ∉ dirsOf k V)
    (hj : i < 1024) : Halves w (setCowEntry m t i) k V := by
  obtain ⟨h1, h2⟩ := setCowEntry_pmm m t i
  exact h.write ht hn h1 (fun a ha => (Pmm.held_congr h1 h2).2 ha)
    fun a ha => setCowEntry_mem hj ha m

/-- **`hal_vmm_set_cow`** writes to page tables. -/
theorem Halves.setCow (h : Halves w m k V) (hp : p ∈ dirsOf k V) :
    Halves w (halVmmSetCow m p) k V := by
  unfold halVmmSetCow
  refine List.foldlRecOn (motive := fun m => Halves w m k V) _ _ h fun m h i hi => ?_
  have hl : i < 768 := List.mem_range.1 hi
  by_cases hpr : isPresent (word m p i)
  · rw [if_neg (by rw [hpr]; exact Bool.false_ne_true)]
    have hn := h.table_not_dir hp (by omega) hpr
    exact List.foldlRecOn (motive := fun m => Halves w m k V) _ _ h fun m' h' j hj =>
      h'.setCowEntry (pageOf_aligned _) hn (List.mem_range.1 hj)
  · rw [if_pos (by rw [Bool.eq_false_iff.2 hpr]; rfl)]
    exact h

theorem pageOf_flags (a : ℕ) : pageOf (0 ||| (a &&& 0xFFF)) = 0 := by
  have : a &&& 0xFFF ≤ 0xFFF := Nat.and_le_right
  rw [Nat.zero_or, pageOf]
  omega

/-- **One table of `hal_vm_arch_clone`**, with or without a frame for it. -/
theorem Halves.cloneTable (h : Halves w m k V) (hp : p ∈ V) (hi : i < 768) (q : ℕ) :
    Halves w (cloneTable m p q i) k V := by
  unfold Kabanos.cloneTable
  by_cases hpr : isPresent (word m q i)
  swap
  · rw [if_neg hpr]
    exact h
  rw [if_pos hpr]
  have hpa := h.aligned (mem_dirsOf hp)
  rcases m.pmm.alloc_spec with ⟨e, -⟩ | ⟨s, t, e, ht⟩ <;> simp only [e]
  · -- no memory: the copy goes to address 0
    have h0 : (0 : ℕ) ∉ dirsOf k V := fun h0 => h.ne_zero h0 rfl
    have h1 : Halves w (physCopy m 0 (pageOf (word m q i))) k V :=
      h.write (t := 0) rfl h0 (.refl _) (fun _ => id) fun a ha => memcpy_out (by omega)
    have hx : 0 ||| (word (physCopy m 0 (pageOf (word m q i))) q i &&& 0xFFF) < 2 ^ 32 := by
      have : word (physCopy m 0 (pageOf (word m q i))) q i &&& 0xFFF ≤ 0xFFF := Nat.and_le_right
      rw [Nat.zero_or]
      omega
    refine h1.set_slot hp hi (.refl _) (fun a ha _ => ha)
      (fun q' hq' j hj => word_setWord hpa (h.aligned hq') (by omega) hj hx) fun _ hne => ?_
    exact absurd (pageOf_flags _) hne
  · have hta := ht.frame.aligned h.framed
    have hfl : ∀ a : ℕ, a &&& 0xFFF < 4096 := fun a => Nat.lt_succ_of_le Nat.and_le_right
    exact h.link hp hi (physCopy { m with pmm := s } t (pageOf (word m q i))) ht
      (fun a ha => memcpy_out (by omega))
      (page_or_lt hta (ht.frame.lt h.framed) (hfl _)) (pageOf_or hta (hfl _))

theorem Halves.archClone (h : Halves w m k V) (hp : p ∈ V) (hq : q ∈ dirsOf k V) :
    Halves w (halVmArchClone m p q) k V := by
  have hpd := mem_dirsOf (k := k) hp
  unfold halVmArchClone
  have h1 : Halves w ((List.range kernelPdStart).foldl (fun m i => Kabanos.cloneTable m p q i)
      (halVmmSetCow m q)) k V :=
    List.foldlRecOn (motive := fun m => Halves w m k V) _ _ (h.setCow hq) fun m' h' i hi =>
      h'.cloneTable hp (List.mem_range.1 hi) q
  obtain ⟨m1, hm1⟩ : ∃ m1, (List.range kernelPdStart).foldl (fun m i => Kabanos.cloneTable m p q i)
      (halVmmSetCow m q) = m1 := ⟨_, rfl⟩
  rw [hm1] at h1
  simp only [hm1]
  have hpa := h1.aligned hpd
  refine h1.congr (.refl _) (fun _ => id) fun r hr i hi => ?_
  have hra := h1.aligned hr
  by_cases hc : r = p ∧ 768 ≤ i
  · -- the kernel half of the clone is what it was
    obtain ⟨rfl, hu⟩ := hc
    have e : word m1 q i = word m1 r i := by rw [h1.upper q hq i hu hi, h1.upper r hr i hu hi]
    rw [← e]
    have hb : ∀ j, 4 * i ≤ j → j < 4 * i + 4 → memcpy m1.mem (r + 4 * kernelPdStart) m1.mem
        (q + 4 * kernelPdStart) ((1024 - kernelPdStart) * 4) (r + j) = m1.mem (q + j) :=
      fun j g1 g2 => by
        simp only [kernelPdStart]
        rw [memcpy_in (by omega) (by omega),
          show q + 4 * 768 + (r + j - (r + 4 * 768)) = q + j by omega]
    simp only [word, getU32, Nat.add_assoc]
    rw [hb _ le_rfl (by omega), hb _ (by omega) (by omega), hb _ (by omega) (by omega),
      hb _ (by omega) (by omega)]
  · have hb : ∀ a, r + 4 * i ≤ a → a < r + 4 * i + 4 → memcpy m1.mem (p + 4 * kernelPdStart) m1.mem
        (q + 4 * kernelPdStart) ((1024 - kernelPdStart) * 4) a = m1.mem a := fun a g1 g2 => by
      simp only [kernelPdStart]
      refine memcpy_out ?_
      by_cases hrp : r = p
      · subst hrp
        omega
      · omega
    simp only [word]
    exact getU32_congr hb

theorem Halves.clone (h : Halves w m k V) {vm : Vmspace} (hq : vm.arch ∈ dirsOf k V) :
    vmspaceClone m k vm = (m, none) ∨ ∃ m' clone, vmspaceClone m k vm = (m', some clone) ∧
      Halves w m' k (insert clone.arch V) := by
  unfold vmspaceClone
  rcases h.create with e | ⟨m1, p, e, h1⟩ <;> rw [e]
  · exact .inl rfl
  · refine .inr ⟨_, _, rfl, h1.archClone (Finset.mem_insert_self p V) ?_⟩
    rcases hq with hq | hq
    · exact .inl hq
    · exact .inr (Finset.mem_coe.2 (Finset.mem_insert_of_mem (Finset.mem_coe.1 hq)))

/-! ## Boot -/

theorem preallocLoop_spec (n s : ℕ) (hs : 768 ≤ s) (hn : s + n ≤ 1024)
    (h : Tables m (dirsOf k ∅) (procHome k)) (hl : ∀ i < 768, isPresent (word m k i) = false)
    (hu : ∀ i, 768 ≤ i → i < s → isPresent (word m k i)) {r : Mm × Bool}
    (hr : (List.range' s n).foldl (fun r pdIndex =>
      if r.2 then
        let (m, ptPhys) := getOrCreatePageTable r.1 k pdIndex 0
        (m, ptPhys ≠ 0)
      else r) (m, true) = r) (hok : r.2) :
    Tables r.1 (dirsOf k ∅) (procHome k) ∧ (∀ i < 768, isPresent (word r.1 k i) = false) ∧
      ∀ i, 768 ≤ i → i < s + n → isPresent (word r.1 k i) := by
  have hk : k ∈ dirsOf k ∅ := .inl rfl
  induction n generalizing m s with
  | zero =>
    obtain rfl : (m, true) = r := hr
    exact ⟨h, hl, hu⟩
  | succ n ih =>
    rw [List.range'_succ, List.foldl_cons, if_pos rfl] at hr
    have hsole : Sole (dirsOf k ∅) (procHome k) k s :=
      ⟨procHome_upper hs k k, fun q hq _ => by simpa [dirsOf] using hq⟩
    rcases getOrCreate_spec h hk (i := s) (by omega) (.inl hsole) 0 with
      e | ⟨m', t, e, ht, h1, h2, h3, -, -⟩
    · -- once a table is missing, the flag stays false
      have hstop : ∀ (l : List ℕ) (x : Mm), l.foldl (fun r pdIndex =>
          if r.2 then
            let (m, ptPhys) := getOrCreatePageTable r.1 k pdIndex 0
            (m, decide (ptPhys ≠ 0))
          else r) (x, false) = (x, false) := fun l x => by
        induction l with
        | nil => rfl
        | cons _ _ ih => rw [List.foldl_cons]; exact ih
      simp only [e] at hr
      rw [show decide ((0 : ℕ) ≠ 0) = false from rfl, hstop] at hr
      rw [← hr] at hok
      cases hok
    · have hw : ∀ j < 1024, j ≠ s → word m' k j = word m k j := fun j hj hne => by
        rw [← getOrCreate_word h hk (by omega) hj hne 0, e]
      simp only [e] at hr
      rw [decide_eq_true ht] at hr
      obtain ⟨g1, g2, g3⟩ := ih (s + 1) (by omega) (by omega) h1
        (fun i hi => by rw [hw i (by omega) (by omega)]; exact hl i hi)
        (fun i h1 h2 => by
          by_cases hi : i = s
          · rw [hi]; exact h3
          · rw [hw i (by omega) hi]; exact hu i h1 (by omega)) hr
      exact ⟨g1, g2, fun i h1 h2 => g3 i h1 (by omega)⟩

/-- **`hal_vm_prealloc_kernel_tables`** fills the upper half of the kernel's directory. -/
theorem prealloc_dirs (h : Tables m (dirsOf k ∅) (procHome k))
    (hl : ∀ i < 768, isPresent (word m k i) = false)
    (hok : (halVmPreallocKernelTables m k).2) :
    Dirs (halVmPreallocKernelTables m k).1 k ∅ := by
  obtain ⟨h1, h2, h3⟩ := preallocLoop_spec 256 768 le_rfl (by norm_num) h hl
    (fun i h1 h2 => by omega) rfl hok
  exact ⟨h1, Finset.notMem_empty k, h2, fun i g1 g2 => h3 i g1 (by omega)⟩

theorem prealloc_of_full (h : Dirs m k V) : halVmPreallocKernelTables m k = (m, true) := by
  refine List.foldlRecOn (motive := fun r => r = (m, true)) _ _ rfl fun r hr i hi => ?_
  rw [hr, if_pos rfl]
  have hi' : 768 ≤ i ∧ i < 1024 := by
    have := List.mem_range'_1.1 hi
    rw [kernelPdStart] at this
    omega
  have hpr := h.upper i hi'.1 hi'.2
  have h0 := (h.tables.table_held (.inl rfl) hi'.2 hpr).isFrame.ne_zero
  simp only [getOrCreatePageTable, if_pos hpr, decide_eq_true h0]

end

/-! ## Runs -/

/-- The machine and the page directories of its processes. -/
structure HalfRun where
  mm : Mm
  dirs : Finset ℕ

/-- `vmspace_create`, `vmspace_clone`, `vmspace_destroy`, `hal_vm_map_range` and
    `hal_vm_unmap_range`. -/
inductive HalfCall
  | create
  | clone (original : Vmspace)
  | destroy (vm : Vmspace)
  | map (vm pa va size flags : ℕ)
  | unmap (vm va size : ℕ)

/-- The directories after `vmspace_create` or `vmspace_clone`. -/
def HalfRun.add (s : HalfRun) (r : Mm × Option Vmspace) : HalfRun :=
  ⟨r.1, match r.2 with
    | none => s.dirs
    | some vm => insert vm.arch s.dirs⟩

def HalfCall.run (k : ℕ) (c : HalfCall) (s : HalfRun) : HalfRun :=
  match c with
  | .create => s.add (vmspaceCreate s.mm k)
  | .clone original => s.add (vmspaceClone s.mm k original)
  | .destroy vm => ⟨vmspaceDestroy s.mm k vm, s.dirs.erase vm.arch⟩
  | .map vm pa va size flags => ⟨(halVmMapRange s.mm vm pa va size flags).1, s.dirs⟩
  | .unmap vm va size => ⟨halVmUnmapRange s.mm vm va size, s.dirs⟩

/-- A call on one of the address spaces, at page-aligned addresses; it does not stop in the
    assertion of `unmap_page_table_range`. -/
def HalfCall.Legal (k : ℕ) (s : HalfRun) : HalfCall → Prop
  | .create => True
  | .clone original => original.arch ∈ dirsOf k s.dirs
  | .destroy vm => vm.arch ∈ dirsOf k s.dirs
  | .map vm pa va size _ => vm ∈ dirsOf k s.dirs ∧ pa % 4096 = 0 ∧ va % 4096 = 0 ∧ size % 4096 = 0 ∧
      va < 2 ^ 32
  | .unmap vm va size => vm ∈ dirsOf k s.dirs ∧ va % 4096 = 0 ∧ size % 4096 = 0 ∧ va < 2 ^ 32 ∧
      NoWholeTable va size

/-- The kernel's own address space gets no mappings below `KERNEL_BASE`. -/
def HalfCall.KernelHigh (k : ℕ) : HalfCall → Prop
  | .map vm _ va _ _ => vm = k → kernelBase ≤ va
  | _ => True

/-- No address from `va` on is in the direct map, through which the kernel reaches the page
    directories and page tables. -/
def OffDirectMap (m : Mm) (va size : ℕ) : Prop :=
  ∀ a, va ≤ a → a < (va + size) % 2 ^ 32 → ¬ InDirectMap m a

/-- Mappings are made and removed outside the direct map only. -/
def HalfCall.OffDirectMap (s : HalfRun) : HalfCall → Prop
  | .map _ _ va size _ | .unmap _ va size => Kabanos.OffDirectMap s.mm va size
  | _ => True

section
variable {w : ℕ → ℕ} {m : Mm} {k p : ℕ} {s s' : HalfRun}

theorem Halves.step (h : Halves w s.mm k s.dirs) {c : HalfCall} (hc : c.Legal k s)
    (hk : c.KernelHigh k) : Halves w (c.run k s).mm k (c.run k s).dirs := by
  cases c with
  | create =>
    simp only [HalfCall.run, HalfRun.add]
    rcases h.create with e | ⟨m', p, e, h'⟩ <;> simp only [e]
    · exact h
    · exact h'
  | clone original =>
    simp only [HalfCall.run, HalfRun.add]
    rcases h.clone hc with e | ⟨m', vm, e, h'⟩ <;> simp only [e]
    · exact h
    · exact h'
  | destroy vm =>
    simp only [HalfCall.run, vmspaceDestroy]
    rcases hc with hc | hc
    · rw [if_pos hc, hc, Finset.erase_eq_of_notMem h.kernel]
      exact h
    · have hne : vm.arch ≠ k := fun e => h.kernel (e ▸ hc)
      rw [if_neg hne]
      exact h.destroy hc
  | map vm pa va size flags =>
    obtain ⟨h1, h2, h3, -, h4⟩ := hc
    exact h.map_range h1 h2 h3 h4 hk flags
  | unmap vm va size =>
    obtain ⟨h1, h2, -, h3, h4⟩ := hc
    exact h.unmap_range h1 h2 h3 h4

/-- The kernel's own address space with page `0` mapped, and a process then. -/
def demoLow : Mm := (vmspaceCreate (halVmMapRange (bootMm 0 0) 0x1000 0 0 4096 0).1 0x1000).1

/-- After `vmspace_destroy` of the process: the kernel's page table is free. -/
def demoFreed : Mm :=
  { demoLow with pmm := pmmFrameFree (pmmFrameFree demoLow.pmm 0x102000) 0x103000 }

theorem archDestroy_of_one (h0 : isPresent (word m p 0))
    (h : ∀ i < 768, 0 < i → isPresent (word m p i) = false) : halVmArchDestroy m p =
      { m with pmm := pmmFrameFree (pmmFrameFree m.pmm (pageOf (word m p 0))) p } := by
  rw [halVmArchDestroy, foldl_range_one (show 0 < kernelPdStart by decide)
    (fun j hj => absurd hj (Nat.not_lt_zero j)), if_pos h0]
  intro j hj hj0
  rw [if_pos h0]
  exact if_neg (Bool.eq_false_iff.1 (h j hj hj0))

theorem demoLow_destroy : vmspaceDestroy demoLow 0x1000 ⟨0x103000, []⟩ = demoFreed := by
  have h0 : isPresent (word demoLow 0x103000 0) := by decide +kernel
  have h1 : pageOf (word demoLow 0x103000 0) = 0x102000 := by decide +kernel
  rw [vmspaceDestroy, if_neg (by decide), archDestroy_of_one h0 (by decide +kernel), h1]
  rfl

theorem HalfCall.run_create {V : Finset ℕ} (h : (vmspaceCreate m k).2.map Vmspace.arch = some p) :
    HalfCall.run k .create ⟨m, V⟩ = ⟨(vmspaceCreate m k).1, insert p V⟩ := by
  obtain ⟨vm, e, rfl⟩ := Option.map_eq_some_iff.1 h
  simp only [HalfCall.run, HalfRun.add, e]

/-- Two processes, one of which maps a page of the kernel half. -/
def demoInStep : Mm :=
  (halVmMapRange (vmspaceCreate (vmspaceCreate (bootMm 0 0) 0x1000).1 0x1000).1 0x102000 0x150000
    0xD0000000 4096 2).1

end

end Kabanos
