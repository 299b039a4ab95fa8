/-
  What is in a page when a process gets it.

  Pages are given by `vmspace_map_stack`, `vmspace_map_heap`, `sys_sbrk` and demand paging,
  and between these calls the rest of the system does anything that leaves the page
  directories intact.  A page is fresh from the call that gives it on, until something
  happens to it.
-/
import Kabanos.Mm.Region

namespace Kabanos

variable {start stop top size addr : ℕ} {kmalloc write : Bool} {vm : Vmspace}

/-- The frames that are not in use hold zeros. -/
def FreeZero (m : Mm) : Prop :=
  ∀ f, m.pmm.IsFrame f → ¬ m.pmm.Held f → ∀ a < 4096, m.mem (f + a) = 0

/-- Page `v` of `p` reads as zeros. -/
def ZeroPage (m : Mm) (p v : ℕ) : Prop := ∀ a < 4096, readByte m p (v * 4096 + a) = some 0

section
variable {m m' : Mm} {k : ℕ} {V : Finset ℕ} {p q v u f fl b n : ℕ}

theorem readByte_page (h : entry m p v ≠ 0) {a : ℕ} (ha : a < 4096) :
    readByte m p (v * 4096 + a) = some (m.mem (pageOf (entry m p v) + a)) := by
  have e1 : (v * 4096 + a) / 4096 = v := by omega
  have e2 : (v * 4096 + a) % 4096 = a := by omega
  rw [readByte, e1, e2, if_neg h]

theorem zeroPage_iff (h : entry m p v ≠ 0) :
    ZeroPage m p v ↔ ∀ a < 4096, m.mem (pageOf (entry m p v) + a) = 0 := by
  refine forall_congr' fun a => forall_congr' fun ha => ?_
  rw [readByte_page h ha, Option.some_inj]

theorem FreeZero.frame (h : FreeZero m) (hfr : m.pmm.Framed)
    (hg : Gives (dirsOf k V) (procHome k) f m m') : ∀ a < 4096, m'.mem (f + a) = 0 := fun a ha => by
  rw [hg.bytes f (hg.frame.aligned hfr) hg.plain (f + a) (by omega) (by omega)]
  exact h f hg.frame hg.fresh a ha

theorem FreeZero.give (h : FreeZero m) (hT : Tables m' (dirsOf k V) (procHome k))
    (hg : Gives (dirsOf k V) (procHome k) f m m') : FreeZero m' := by
  intro g hf hn a ha
  have hg' := hg.same.isFrame.1 hf
  rw [hg.bytes g (hf.aligned hT.framed) (fun ht => hn (hT.isTable_held ht)) _ (by omega) (by omega)]
  exact h g hg' (fun hh => hn (hg.keep g hh)) a ha

/-- What holds while a region is backed: the pages in `F` and the `i` pages given so far
    read as zeros. -/
structure Filling (k : ℕ) (V : Finset ℕ) (F : Set (ℕ × ℕ)) (p b i : ℕ) (m : Mm) : Prop where
  dirs : Dirs m k V
  zero : FreeZero m
  old : ∀ x ∈ F, DataPage m k V x.1 x.2 ∧ ZeroPage m x.1 x.2
  new : ∀ j < i, DataPage m k V p (b + j) ∧ ZeroPage m p (b + j)

theorem Filling.step {F : Set (ℕ × ℕ)} {i : ℕ} (h : Filling k V F p b i m) (hp : p ∈ V)
    (hv : b + i + 1 < 2 ^ 20) (hr : (vaAllocPage p fl m ((b + i) * 4096)).2) :
    Filling k V F p b (i + 1) (vaAllocPage p fl m ((b + i) * 4096)).1 := by
  rcases h.dirs.alloc_page hp hv fl with ⟨m', e, -⟩ | ⟨m', f, e, hg, hd, he⟩ <;> rw [e] at hr ⊢
  · cases hr
  have hfr := h.dirs.tables.framed
  have hold : ∀ q u, DataPage m k V q u ∧ ZeroPage m q u →
      DataPage m' k V q u ∧ ZeroPage m' q u := by
    rintro q u ⟨h1, h2⟩
    obtain ⟨h3, h4⟩ := h1.give hfr hg he
    refine ⟨h3, (zeroPage_iff h3.mapped).2 fun a ha => ?_⟩
    rcases h4 with h4 | ⟨h4, h5⟩ <;> rw [h4]
    · exact h.zero.frame hfr hg a ha
    · rw [h5 _ (by omega) (by omega)]
      exact (zeroPage_iff h1.mapped).1 h2 a ha
  refine ⟨hd, h.zero.give hd.tables hg, fun x hx => hold _ _ (h.old x hx), fun j hj => ?_⟩
  rcases Nat.lt_succ_iff_lt_or_eq.1 hj with hj | rfl
  · exact hold _ _ (h.new j hj)
  · obtain ⟨h1, h2⟩ := Gives.page hfr hg he hp (by omega)
    refine ⟨h1, (zeroPage_iff h1.mapped).2 fun a ha => ?_⟩
    rw [h2]
    exact h.zero.frame hfr hg a ha

/-- **A region that is backed from zeroed frames reads as zeros.** -/
theorem vaAllocRegion_zero {F : Set (ℕ × ℕ)} (h : Filling k V F p b 0 m) (hp : p ∈ V)
    (hbn : b + n < 2 ^ 20)
    (hr : (vaAllocRegion m p (b * 4096) (n * 4096) fl).2) :
    Filling k V F p b n (vaAllocRegion m p (b * 4096) (n * 4096) fl).1 := by
  rcases vaAllocRegion_rule (J := Filling k V F p b) hbn
    (fun i hi m hJ hok => hJ.step hp (by omega) hok) h with ⟨m', e, h1⟩ | ⟨_, _, _, _, _, _, e⟩ <;>
    rw [e] at hr ⊢
  · exact h1
  · cases hr

/-! ## Histories -/

/-- The machine, the processes with their page directories, and the pages that were given
    and not touched since. -/
structure FreshRun where
  mm : Mm
  dirs : Finset ℕ
  procs : ℕ → Proc
  fresh : Set (ℕ × ℕ)

/-- The calls that give pages to process `p`, and whatever else happens. -/
inductive FreshCall
  | mapStack (p : ℕ) (kmalloc : Bool) (stackTop size : ℕ)
  | mapHeap (p : ℕ) (kmalloc : Bool) (heapStart initialSize : ℕ)
  | sbrk (p : ℕ) (increment : ℤ)
  | fault (p addr : ℕ) (write : Bool)
  | other (s : FreshRun)

/-- The pages of `p` in a range. -/
def pagesOf (p start stop : ℕ) : Set (ℕ × ℕ) :=
  {x | x.1 = p ∧ start ≤ x.2 * 4096 ∧ x.2 * 4096 < stop}

def FreshCall.gives (s : FreshRun) : FreshCall → Set (ℕ × ℕ)
  | .mapStack p _ stackTop size => pagesOf p (stackTop - size) stackTop
  | .mapHeap p _ heapStart initialSize => pagesOf p heapStart (heapStart + initialSize)
  | .sbrk p increment =>
    pagesOf p (alignUp (s.procs p).brk) (alignUp (newBreak (s.procs p).brk increment))
  | .fault p addr _ => pagesOf p (alignDown addr) (alignDown addr + 4096)
  | .other _ => ∅

def FreshCall.run (c : FreshCall) (s : FreshRun) : FreshRun :=
  match c with
  | .mapStack p kmalloc stackTop size =>
    let r := vmspaceMapStack kmalloc s.mm (s.procs p).vmspace stackTop size
    ⟨r.1, s.dirs, Function.update s.procs p ⟨r.2.1, (s.procs p).brk⟩, s.fresh ∪ c.gives s⟩
  | .mapHeap p kmalloc heapStart initialSize =>
    let r := vmspaceMapHeap kmalloc s.mm (s.procs p).vmspace heapStart initialSize
    ⟨r.1, s.dirs, Function.update s.procs p ⟨r.2.1, (s.procs p).brk⟩, s.fresh ∪ c.gives s⟩
  | .sbrk p increment =>
    let r := sysSbrk s.mm (s.procs p) increment
    ⟨r.1, s.dirs, Function.update s.procs p r.2.1, s.fresh ∪ c.gives s⟩
  | .fault p addr write =>
    ⟨(pfHandle s.mm (s.procs p).vmspace addr write false).1, s.dirs, s.procs,
      s.fresh ∪ c.gives s⟩
  | .other s' => s'

/-- Page `v` of `p` has the same entry and the same contents. -/
def SamePage (m m' : Mm) (p v : ℕ) : Prop :=
  entry m' p v = entry m p v ∧ SameFrame m m' (pageOf (entry m p v))

/-- Page-aligned calls of the processes that succeed; a fault is one for demand paging.
    Anything else keeps the page directories, and what is still fresh afterwards is a page
    that it left alone. -/
def FreshCall.Ok (k : ℕ) (s : FreshRun) : FreshCall → Prop
  | .mapStack p kmalloc stackTop size =>
    p ∈ s.dirs ∧ (s.procs p).vmspace.arch = p ∧ stackTop % 4096 = 0 ∧ size % 4096 = 0 ∧
      size ≤ stackTop ∧ stackTop < 2 ^ 32 ∧
        (vmspaceMapStack kmalloc s.mm (s.procs p).vmspace stackTop size).2.2 = true
  | .mapHeap p kmalloc heapStart initialSize =>
    p ∈ s.dirs ∧ (s.procs p).vmspace.arch = p ∧ heapStart % 4096 = 0 ∧ initialSize % 4096 = 0 ∧
      heapStart + initialSize < 2 ^ 32 ∧
        (vmspaceMapHeap kmalloc s.mm (s.procs p).vmspace heapStart initialSize).2.2 = true
  | .sbrk p increment =>
    p ∈ s.dirs ∧ (s.procs p).vmspace.arch = p ∧
      (sysSbrk s.mm (s.procs p) increment).2.2.isSome = true
  | .fault p addr write =>
    p ∈ s.dirs ∧ (s.procs p).vmspace.arch = p ∧ addr < 0xFFFFF000 ∧
      (halVmmHandleCow s.mm p addr).2 = false ∧
        (pfHandle s.mm (s.procs p).vmspace addr write false).2 = true
  | .other s' => Dirs s'.mm k s'.dirs ∧ ∀ x ∈ s'.fresh, x ∈ s.fresh ∧
      DataPage s'.mm k s'.dirs x.1 x.2 ∧ SamePage s.mm s'.mm x.1 x.2

/-- When a page is given, the free frames hold zeros. -/
def FreshCall.Zeroed (s : FreshRun) : FreshCall → Prop
  | .other _ => True
  | _ => FreeZero s.mm

/-- What holds along every such history. -/
structure FreshRun.Inv (k : ℕ) (s : FreshRun) : Prop where
  dirs : Dirs s.mm k s.dirs
  fresh : ∀ x ∈ s.fresh, DataPage s.mm k s.dirs x.1 x.2 ∧ ZeroPage s.mm x.1 x.2

section
variable {s : FreshRun}

theorem FreshRun.Inv.filling (h : s.Inv k) (hz : FreeZero s.mm) (p b : ℕ) :
    Filling k s.dirs s.fresh p b 0 s.mm :=
  ⟨h.dirs, hz, h.fresh, fun j hj => absurd hj (Nat.not_lt_zero j)⟩

theorem FreshRun.Inv.region (h : s.Inv k) (hz : FreeZero s.mm) (hp : p ∈ s.dirs)
    (h1 : start % 4096 = 0) (h2 : stop % 4096 = 0) (h3 : start ≤ stop) (h4 : stop < 2 ^ 32)
    (hr : (vaAllocRegion s.mm p start (stop - start) fl).2) (procs : ℕ → Proc) :
    FreshRun.Inv k ⟨(vaAllocRegion s.mm p start (stop - start) fl).1, s.dirs, procs,
      s.fresh ∪ pagesOf p start stop⟩ := by
  obtain ⟨b, rfl⟩ : ∃ b, start = b * 4096 := ⟨start / 4096, by omega⟩
  obtain ⟨n, en⟩ : ∃ n, stop - b * 4096 = n * 4096 := ⟨(stop - b * 4096) / 4096, by omega⟩
  rw [en] at hr ⊢
  obtain ⟨g1, -, g3, g4⟩ := vaAllocRegion_zero (h.filling hz p b) hp (by omega) hr
  refine ⟨g1, ?_⟩
  rintro ⟨q, v⟩ (hx | ⟨rfl, hv1, hv2⟩)
  · exact g3 _ hx
  · simp only at hv1 hv2 ⊢
    have := g4 (v - b) (by omega)
    rwa [show b + (v - b) = v by omega] at this

theorem handleCow_false (h : (halVmmHandleCow m p v).2 = false) :
    halVmmHandleCow m p v = (m, false) := by
  unfold halVmmHandleCow at h ⊢
  split at h
  · rfl
  next pt i _ =>
    by_cases hc : (!isCow (word m pt i))
    · rw [if_pos hc]
    · rw [if_neg hc] at h
      dsimp only at h
      split_ifs at h

theorem mapStack_eq (m : Mm) (vm : Vmspace) (top size : ℕ) : vmspaceMapStack true m vm top size =
      ((vaAllocRegion m vm.arch (sub32 top size) size userPageFlags).1,
        vmspaceAddVma vm
          (vmaOf (sub32 top size) size (vmaRead ||| vmaWrite ||| vmaUser ||| vmaStack)),
        (vaAllocRegion m vm.arch (sub32 top size) size userPageFlags).2) := by
  rw [vmspaceMapStack]
  rfl

theorem mapHeap_eq (m : Mm) (vm : Vmspace) (start size : ℕ) : vmspaceMapHeap true m vm start size =
      ((vaAllocRegion m vm.arch start size userPageFlags).1,
        vmspaceAddVma vm (vmaOf start size (vmaRead ||| vmaWrite ||| vmaUser ||| vmaHeap)),
        (vaAllocRegion m vm.arch start size userPageFlags).2) := by
  rw [vmspaceMapHeap]
  rfl

theorem mapStack_true
    (h : (vmspaceMapStack kmalloc m vm top size).2.2) : kmalloc := by
  cases kmalloc with
  | false =>
    rw [vmspaceMapStack] at h
    cases h
  | true => rfl

theorem mapHeap_true
    (h : (vmspaceMapHeap kmalloc m vm start size).2.2) : kmalloc := by
  cases kmalloc with
  | false =>
    rw [vmspaceMapHeap] at h
    cases h
  | true => rfl

theorem pfHandle_true
    (hcow : (halVmmHandleCow m vm.arch addr).2 = false)
    (h : (pfHandle m vm addr write false).2) :
    ∃ m' fl, vaAllocRegion m vm.arch (alignDown addr) 4096 fl = (m', true) ∧
      (pfHandle m vm addr write false).1 = m' := by
  rw [pfHandle] at h ⊢
  cases hv : vmspaceFindVma vm addr with
  | none => rw [hv] at h; cases h
  | some vma =>
    rw [hv] at h
    simp only at h ⊢
    by_cases hw : (write && !vma.flags.testBit 1)
    · rw [if_pos hw] at h; cases h
    · rw [if_neg hw, handleCow_false hcow] at h ⊢
      simp only [Bool.false_eq_true, if_false] at h ⊢
      refine ⟨_, _, Prod.ext rfl h, rfl⟩

theorem FreshRun.Inv.other (h : s.Inv k) {s' : FreshRun} (hok : FreshCall.Ok k s (.other s')) :
    s'.Inv k := by
  refine ⟨hok.1, fun x hx => ?_⟩
  obtain ⟨h1, h2, h3, h4⟩ := hok.2 x hx
  have hm := (h.fresh x h1).1.mapped
  refine ⟨h2, (zeroPage_iff h2.mapped).2 fun a ha => ?_⟩
  rw [h3, h4 _ (by omega) (by omega)]
  exact (zeroPage_iff hm).1 (h.fresh x h1).2 a ha

theorem pagesOf_empty (h : stop ≤ start) (p : ℕ) : pagesOf p start stop = ∅ := by
  ext x
  simp only [pagesOf, Set.mem_ofPred_eq, Set.mem_empty_iff_false, iff_false]
  omega

section
variable (h : s.Inv k) (hz : FreeZero s.mm)
include h hz

theorem FreshRun.Inv.mapStack (hok : FreshCall.Ok k s (.mapStack p kmalloc top size)) :
    (FreshCall.run (.mapStack p kmalloc top size) s).Inv k := by
  obtain ⟨hp, ha, h1, h2, h3, h4, hr⟩ := hok
  obtain rfl := mapStack_true hr
  have e : sub32 top size = top - size := by rw [sub32]; omega
  have e2 : size = top - (top - size) := by omega
  rw [mapStack_eq, ha, e] at hr
  simp only [FreshCall.run, FreshCall.gives]
  rw [mapStack_eq, ha, e]
  simp only at hr ⊢
  rw [show vaAllocRegion s.mm p (top - size) size userPageFlags =
    vaAllocRegion s.mm p (top - size) (top - (top - size)) userPageFlags by rw [← e2]] at hr ⊢
  exact h.region hz hp (by omega) h1 (by omega) h4 hr _

theorem FreshRun.Inv.mapHeap (hok : FreshCall.Ok k s (.mapHeap p kmalloc start size)) :
    (FreshCall.run (.mapHeap p kmalloc start size) s).Inv k := by
  obtain ⟨hp, ha, h1, h2, h3, hr⟩ := hok
  obtain rfl := mapHeap_true hr
  have e2 : size = start + size - start := by omega
  rw [mapHeap_eq, ha] at hr
  simp only [FreshCall.run, FreshCall.gives]
  rw [mapHeap_eq, ha]
  simp only at hr ⊢
  rw [show vaAllocRegion s.mm p start size userPageFlags =
    vaAllocRegion s.mm p start (start + size - start) userPageFlags by rw [← e2]] at hr ⊢
  exact h.region hz hp h1 (by omega) (by omega) h3 hr _

theorem FreshRun.Inv.sbrk {increment : ℤ} (hok : FreshCall.Ok k s (.sbrk p increment)) :
    (FreshCall.run (.sbrk p increment) s).Inv k := by
  obtain ⟨hp, ha, hr⟩ := hok
  simp only [FreshCall.run, FreshCall.gives]
  obtain ⟨h1, h2⟩ := alignUp_aligned (s.procs p).brk
  obtain ⟨h3, h4⟩ := alignUp_aligned (newBreak (s.procs p).brk increment)
  obtain ⟨r, e⟩ : ∃ r, sysSbrk s.mm (s.procs p) increment = r := ⟨_, rfl⟩
  rw [e] at hr ⊢
  rcases (sysSbrk_spec e).2 with ⟨e1, hle⟩ | ⟨hlt, e1⟩
  · rw [e1, pagesOf_empty (hle hr), Set.union_empty]
    exact ⟨h.dirs, h.fresh⟩
  · rw [ha, hr] at e1
    have := h.region hz hp h1 h3 hlt.le h4 (by rw [e1]) (Function.update s.procs p r.2.1)
    rw [e1] at this
    exact this

theorem FreshRun.Inv.fault (hok : FreshCall.Ok k s (.fault p addr write)) :
    (FreshCall.run (.fault p addr write) s).Inv k := by
  obtain ⟨hp, ha, h1, hc, hr⟩ := hok
  simp only [FreshCall.run, FreshCall.gives]
  rw [← ha] at hc
  obtain ⟨m', fl, e1, e2⟩ := pfHandle_true hc hr
  have h2 : alignDown addr % 4096 = 0 ∧ alignDown addr + 4096 < 2 ^ 32 := by
    rw [alignDown]; omega
  have e3 : 4096 = alignDown addr + 4096 - alignDown addr := by omega
  rw [ha, e3] at e1
  have := h.region hz hp h2.1 (by omega) (by omega) h2.2 (by rw [e1]) s.procs
  rw [e1] at this
  rw [e2]
  exact this

end

theorem FreshRun.Inv.run (h : s.Inv k) {c : FreshCall} (hok : c.Ok k s) (hz : c.Zeroed s) :
    (c.run s).Inv k := by
  cases c with
  | mapStack p kmalloc top size => exact h.mapStack hz hok
  | mapHeap p kmalloc start size => exact h.mapHeap hz hok
  | sbrk p increment => exact h.sbrk hz hok
  | fault p addr write => exact h.fault hz hok
  | other s' => exact h.other hok

/-- **Fresh pages carry no old data**, in every history in which the free frames hold zeros
    whenever a page is given: they read as zeros, so that two such histories show a process
    the same contents. -/
theorem fresh_pages_read_zero {s₀ s s₀' s' : FreshRun} {k' : ℕ} (h₀ : Dirs s₀.mm k s₀.dirs)
    (hf : s₀.fresh = ∅) (hr : Runs FreshCall.run (fun s c => c.Ok k s ∧ c.Zeroed s) s₀ s)
    (h₀' : Dirs s₀'.mm k' s₀'.dirs) (hf' : s₀'.fresh = ∅)
    (hr' : Runs FreshCall.run (fun s c => c.Ok k' s ∧ c.Zeroed s) s₀' s') :
    (∀ x ∈ s.fresh, ∀ a < 4096, readByte s.mm x.1 (x.2 * 4096 + a) = some 0) ∧
      ∀ x ∈ s.fresh, x ∈ s'.fresh → ∀ a < 4096,
        readByte s.mm x.1 (x.2 * 4096 + a) = readByte s'.mm x.1 (x.2 * 4096 + a) := by
  have hI : s.Inv k := Runs.invariant (fun s c hs hc => hs.run hc.1 hc.2) hr
    ⟨h₀, by rw [hf]; simp⟩
  have hI' : s'.Inv k' := Runs.invariant (fun s c hs hc => hs.run hc.1 hc.2) hr'
    ⟨h₀', by rw [hf']; simp⟩
  refine ⟨fun x hx => (hI.fresh x hx).2, fun x hx hx' a ha => ?_⟩
  rw [(hI.fresh x hx).2 a ha, (hI'.fresh x hx').2 a ha]

/-! ### A process and its stack -/

theorem bootMm_freeZero (start : ℕ) : FreeZero (bootMm start 0) := by
  rintro g ⟨f, h1, h2, rfl⟩ hn a ha
  have hf : 258 ≤ f := by
    by_contra hlt
    exact hn (bootMm_held start 0 h1 (by omega))
  show (if _ then _ else if _ then _ else (0 : UInt8)) = 0
  rw [if_neg, if_neg]
  all_goals simp only [frameToAlignedAddr, bootMm]; omega

/-- One process after boot; the free frames hold `old`. -/
def demoFresh (old : UInt8) : FreshRun :=
  ⟨(vmspaceCreate (bootMm 0 old) 0x1000).1, {0x102000}, fun _ => ⟨⟨0x102000, []⟩, 0⟩, ∅⟩

theorem demoFresh_dirs {old : UInt8}
    (h : (vmspaceCreate (bootMm 0 old) 0x1000).2.map Vmspace.arch = some 0x102000) :
    Dirs (demoFresh old).mm 0x1000 (demoFresh old).dirs :=
  (Dirs.created (bootMm_dirs rfl (by norm_num) old) h).dirs

theorem demoFresh_zero : FreeZero (demoFresh 0).mm := by
  have hb : Dirs (bootMm 0 0) 0x1000 ∅ := bootMm_dirs rfl (by norm_num) 0
  obtain ⟨ht, hm, -⟩ := hb.created (p := 0x102000) (by decide +kernel)
  intro g hg hn a ha
  have hg' := ht.same.isFrame.1 hg
  have hne : g ≠ 0x102000 := fun e => hn ((ht.held g).2 (.inr e))
  have hga := hg'.aligned hb.tables.framed
  refine (hm _ (by omega)).trans
    (bootMm_freeZero 0 g hg' (fun hh => hn ((ht.held g).2 (.inl hh))) a ha)

/-- The process gets one page of stack. -/
def demoStack : FreshCall := .mapStack 0x102000 true 0xBFFFF000 0x1000

/-- The process gets two pages of stack. -/
def demoStackTwo : FreshCall := .mapStack 0x102000 true 0xBFFFF000 0x2000

/-- In these two runs a page of the stack has two frames, and reads the same. -/
theorem fresh_stack_page_same :
    halVmVirtToPhys (demoStack.run (demoFresh 0)).mm 0x102000 0xBFFFE000 = 0x103000 ∧
      halVmVirtToPhys (demoStackTwo.run (demoFresh 0)).mm 0x102000 0xBFFFE000 = 0x105000 ∧
      ∀ a < 4096, readByte (demoStack.run (demoFresh 0)).mm 0x102000 (0xBFFFE * 4096 + a) = some 0 ∧
        readByte (demoStack.run (demoFresh 0)).mm 0x102000 (0xBFFFE * 4096 + a)
          = readByte (demoStackTwo.run (demoFresh 0)).mm 0x102000 (0xBFFFE * 4096 + a) := by
  have hr : Runs FreshCall.run (fun s c => c.Ok 0x1000 s ∧ c.Zeroed s) (demoFresh 0)
      (demoStack.run (demoFresh 0)) :=
    Relation.ReflTransGen.refl.tail ⟨demoStack, ⟨⟨by decide, rfl, by decide, by decide, by decide,
      by decide, by decide +kernel⟩, demoFresh_zero⟩, rfl⟩
  have hr' : Runs FreshCall.run (fun s c => c.Ok 0x1000 s ∧ c.Zeroed s) (demoFresh 0)
      (demoStackTwo.run (demoFresh 0)) :=
    Relation.ReflTransGen.refl.tail ⟨demoStackTwo, ⟨⟨by decide, rfl, by decide, by decide,
      by decide, by decide, by decide +kernel⟩, demoFresh_zero⟩, rfl⟩
  have hd : Dirs (demoFresh 0).mm 0x1000 (demoFresh 0).dirs := demoFresh_dirs (by decide +kernel)
  have hx : (0x102000, 0xBFFFE) ∈ (demoStack.run (demoFresh 0)).fresh :=
    .inr ⟨rfl, by decide, by decide⟩
  have hx' : (0x102000, 0xBFFFE) ∈ (demoStackTwo.run (demoFresh 0)).fresh :=
    .inr ⟨rfl, by decide, by decide⟩
  obtain ⟨hzero, hsame⟩ := fresh_pages_read_zero hd rfl hr hd rfl hr'
  refine ⟨by decide +kernel, by decide +kernel, fun a ha => ⟨hzero _ hx a ha, hsame _ hx hx' a ha⟩⟩

/-- Old data shows in a fresh page: two runs that differ in what the free frames hold give a
    process different contents. -/
theorem fresh_stack_page_shows_old_data : Dirs (demoFresh 0xFF).mm 0x1000 (demoFresh 0xFF).dirs ∧
      Dirs (demoFresh 7).mm 0x1000 (demoFresh 7).dirs ∧
      demoStack.Ok 0x1000 (demoFresh 0xFF) ∧ demoStack.Ok 0x1000 (demoFresh 7) ∧
      (0x102000, 0xBFFFE) ∈ (demoStack.run (demoFresh 0xFF)).fresh ∧
      (0x102000, 0xBFFFE) ∈ (demoStack.run (demoFresh 7)).fresh ∧
      readByte (demoStack.run (demoFresh 0xFF)).mm 0x102000 0xBFFFE000 = some 0xFF ∧
      readByte (demoStack.run (demoFresh 7)).mm 0x102000 0xBFFFE000 = some 7 :=
  ⟨demoFresh_dirs (by decide +kernel), demoFresh_dirs (by decide +kernel),
    ⟨by decide, rfl, by decide, by decide, by decide, by decide, by decide +kernel⟩,
    ⟨by decide, rfl, by decide, by decide, by decide, by decide, by decide +kernel⟩,
    .inr ⟨rfl, by decide, by decide⟩, .inr ⟨rfl, by decide, by decide⟩,
    by decide +kernel, by decide +kernel⟩

end

end

end Kabanos
