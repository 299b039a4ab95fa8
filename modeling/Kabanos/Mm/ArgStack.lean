/-
  The arguments on the stack of a new program: `setup_user_stack_args`.

  The layout is studied on a plain buffer, where storing bytes is `memcpy`.  On pages with
  frames of their own `vmspace_copy_to` does the same to the bytes that the process sees.
-/
import Kabanos.Lib.Strings
import Kabanos.Mm.Atomic
import Kabanos.Mm.Exec
import Kabanos.Mm.Uaccess

namespace Kabanos

variable {i j A sp : ℕ} {b' b : Buf}

/-! ## The code -/

/-- `strlen(s) + 1` -/
def CStr.size (s : CStr) : ℕ := s.length + 1

section
variable {σ : Type} (copyTo : σ → ℕ → Buf → ℕ → σ)

/-- The strings, from the last one to the first: the stack pointer and the addresses of the
    strings.  `copyTo` stores bytes at an address. -/
def pushStrings : List CStr → σ → ℕ → σ × ℕ × List ℕ
  | [], s, userSp => (s, userSp, [])
  | arg :: argv, s, userSp =>
    let (s, userSp, ptrs) := pushStrings argv s userSp
    let userSp := sub32 userSp arg.size / 4 * 4
    (copyTo s userSp arg.get arg.size, userSp, userSp :: ptrs)

/-- `setup_user_stack_args` over memories with an operation `copyTo`. -/
def setupArgs (s : σ) (stackTop : ℕ) (argv : List CStr) : σ × ℕ :=
  let argc := argv.length
  let (s, userSp, ptrs) := pushStrings copyTo argv s stackTop
  let userSp := sub32 userSp (4 * (argc + 1)) / 4 * 4
  let argvArrayBase := userSp
  let s := copyTo s userSp (wordsBuf fun i => ptrs.getD i 0) (4 * (argc + 1))
  let userSp := sub32 userSp 4
  let s := copyTo s userSp (wordsBuf fun _ => 0) 4
  let userSp := sub32 userSp 4
  let s := copyTo s userSp (wordsBuf fun _ => argvArrayBase) 4
  let userSp := sub32 userSp 4
  (copyTo s userSp (wordsBuf fun _ => argc) 4, userSp)

end

/-- `setup_user_stack_args`; nobody looks at the results of `vmspace_copy_to`. -/
def setupUserStackArgs (m : Mm) (curr dstVm stackTop : ℕ) (argv : List CStr) : Mm × ℕ :=
  setupArgs (fun m va src n => (vmspaceCopyTo m curr dstVm va src n).1) m stackTop argv

/-! ## What it should leave -/

/-- The room for a string with its padding. -/
def CStr.room (s : CStr) : ℕ := (s.size + 3) / 4 * 4

def stringsRoom (argv : List CStr) : ℕ := (argv.map CStr.room).sum

def arrayRoom (argv : List CStr) : ℕ := 4 * (argv.length + 1)

/-- The array that the word above the stack pointer points to, and its pointers. -/
def argvArray (b : Buf) (sp : ℕ) : ℕ := getU32 b (sp + 4)
def argPtr (b : Buf) (sp i : ℕ) : ℕ := getU32 b (argvArray b sp + 4 * i)

/-- Address and size of the objects: the three words of the frame, the array and the strings. -/
def argObjects (b : Buf) (sp : ℕ) (argv : List CStr) : List (ℕ × ℕ) :=
  (sp, 4) :: (sp + 4, 4) :: (sp + 8, 4) :: (argvArray b sp, arrayRoom argv) ::
    argv.mapIdx fun i s => (argPtr b sp i, s.size)

/-- Two objects do not overlap. -/
def Disjoint2 (o o' : ℕ × ℕ) : Prop := o.1 + o.2 ≤ o'.1 ∨ o'.1 + o'.2 ≤ o.1

/-- The memory at `sp` decodes to the arguments. -/
structure ArgsDecoded (b : Buf) (bottom top sp : ℕ) (argv : List CStr) : Prop where
  argc : getU32 b sp = argv.length
  envp : getU32 b (sp + 8) = 0
  last : argPtr b sp argv.length = 0
  strings : ∀ i (hi : i < argv.length), ∀ j < argv[i].size,
    b (argPtr b sp i + j) = argv[i].get j
  apart : (argObjects b sp argv).Pairwise Disjoint2
  inside : ∀ o ∈ argObjects b sp argv, o.1 % 4 = 0 ∧ bottom ≤ o.1 ∧ o.1 + o.2 ≤ top

/-! ## The stack pointer -/

section
variable {σ : Type} {copyTo : σ → ℕ → Buf → ℕ → σ} {s : σ} {sp top bottom n : ℕ}
  {argv : List CStr} {arg : CStr}

@[simp] theorem stringsRoom_nil : stringsRoom [] = 0 := rfl

@[simp] theorem stringsRoom_cons (arg : CStr) (argv : List CStr) :
    stringsRoom (arg :: argv) = arg.room + stringsRoom argv := rfl

theorem CStr.room_spec (s : CStr) : s.size ≤ s.room ∧ s.room % 4 = 0 ∧ 0 < s.size := by
  unfold CStr.room
  have : 0 < s.size := Nat.succ_pos _
  omega

theorem stringsRoom_aligned (argv : List CStr) : stringsRoom argv % 4 = 0 := by
  induction argv with
  | nil => rfl
  | cons arg argv ih =>
    have := arg.room_spec
    rw [stringsRoom_cons]
    omega

theorem sub32_align (h4 : sp % 4 = 0) (h32 : sp < 2 ^ 32) (hn : (n + 3) / 4 * 4 ≤ sp) :
    sub32 sp n / 4 * 4 = sp - (n + 3) / 4 * 4 := by
  rw [sub32]
  omega

theorem stringsRoom_drop (hi : i < argv.length) :
    stringsRoom (argv.drop i) = argv[i].room + stringsRoom (argv.drop (i + 1)) := by
  rw [List.drop_eq_getElem_cons hi, stringsRoom_cons]

theorem stringsRoom_drop_le (argv : List CStr) (hij : i ≤ j) :
    stringsRoom (argv.drop j) ≤ stringsRoom (argv.drop i) := by
  obtain ⟨d, rfl⟩ := Nat.exists_eq_add_of_le hij
  rw [← List.drop_drop]
  generalize argv.drop i = l
  induction l generalizing d with
  | nil => rw [List.drop_nil]
  | cons arg l ih =>
    cases d with
    | zero => rfl
    | succ d =>
      have := ih d (by omega)
      rw [List.drop_succ_cons, stringsRoom_cons]
      omega

theorem pushStrings_cons (arg : CStr) (argv : List CStr) {sp' : ℕ}
    (e : sub32 (pushStrings copyTo argv s sp).2.1 arg.size / 4 * 4 = sp') :
    pushStrings copyTo (arg :: argv) s sp =
      (copyTo (pushStrings copyTo argv s sp).1 sp' arg.get arg.size, sp',
        sp' :: (pushStrings copyTo argv s sp).2.2) := by
  rw [pushStrings, ← e]

/-- **Where the strings go** does not depend on the memory. -/
theorem pushStrings_ptrs (copyTo : σ → ℕ → Buf → ℕ → σ) (s : σ) (h4 : sp % 4 = 0)
    (h32 : sp < 2 ^ 32) (hr : stringsRoom argv ≤ sp) :
    (pushStrings copyTo argv s sp).2.1 = sp - stringsRoom argv ∧
      (pushStrings copyTo argv s sp).2.2.length = argv.length ∧
      ∀ i < argv.length,
        (pushStrings copyTo argv s sp).2.2.getD i 0 = sp - stringsRoom (argv.drop i) := by
  induction argv with
  | nil => exact ⟨rfl, rfl, fun i hi => absurd hi (Nat.not_lt_zero i)⟩
  | cons arg argv ih =>
    rw [stringsRoom_cons] at hr
    obtain ⟨h1, h2, h3⟩ := ih (by omega)
    have hal := stringsRoom_aligned argv
    have e : sub32 (pushStrings copyTo argv s sp).2.1 arg.size / 4 * 4 =
        sp - stringsRoom (arg :: argv) := by
      have hroom : (arg.size + 3) / 4 * 4 = arg.room := rfl
      rw [h1, sub32_align (by omega) (by omega) (by omega), hroom, stringsRoom_cons]
      omega
    rw [pushStrings_cons arg argv e]
    refine ⟨rfl, ?_, fun i hi => ?_⟩
    · rw [List.length_cons, List.length_cons, h2]
    · cases i with
      | zero => rfl
      | succ i =>
        rw [List.getD_cons_succ, List.drop_succ_cons]
        exact h3 i (by simpa using hi)

/-- **The writes of `setup_user_stack_args`**, if they do not go below address 0. -/
theorem setupArgs_eq (h4 : top % 4 = 0) (h32 : top < 2 ^ 32)
    (hA : A + arrayRoom argv + stringsRoom argv = top) (h12 : 12 ≤ A) :
    setupArgs copyTo s top argv =
      (copyTo (copyTo (copyTo (copyTo (pushStrings copyTo argv s top).1 A
        (wordsBuf fun i => (pushStrings copyTo argv s top).2.2.getD i 0) (arrayRoom argv))
        (A - 4) (wordsBuf fun _ => 0) 4) (A - 8) (wordsBuf fun _ => A) 4)
        (A - 12) (wordsBuf fun _ => argv.length) 4, A - 12) := by
  obtain ⟨h1, -, -⟩ := pushStrings_ptrs copyTo s h4 h32
    (show stringsRoom argv ≤ top by omega)
  have hal := stringsRoom_aligned argv
  have e1 : sub32 (pushStrings copyTo argv s top).2.1 (4 * (argv.length + 1)) / 4 * 4 = A := by
    rw [arrayRoom] at hA
    rw [h1, sub32_align (by omega) (by omega) (by omega)]
    omega
  have e2 : sub32 A 4 = A - 4 := by rw [sub32]; omega
  have e3 : sub32 (A - 4) 4 = A - 8 := by rw [sub32]; omega
  have e4 : sub32 (A - 8) 4 = A - 12 := by rw [sub32]; omega
  simp only [setupArgs, e1, e2, e3, e4]
  rfl

end

/-! ## The layout in a buffer -/

/-- Storing bytes in a plain buffer. -/
def bufCopy (b : Buf) (a : ℕ) (src : Buf) (n : ℕ) : Buf := memcpy b a src 0 n

section
variable {b src : Buf} {sp top bottom a n x : ℕ} {argv : List CStr}

theorem bufCopy_in (h : j < n) : bufCopy b a src n (a + j) = src j := by
  rw [bufCopy, memcpy_in (by omega) (by omega), Nat.zero_add, Nat.add_sub_cancel_left]

theorem bufCopy_out (h : x < a ∨ a + n ≤ x) : bufCopy b a src n x = b x := memcpy_out h

theorem getU32_bufCopy (b : Buf) (f : ℕ → ℕ) (h : 4 * i + 4 ≤ n) :
    getU32 (bufCopy b a (wordsBuf f) n) (a + 4 * i) = f i % 2 ^ 32 := by
  rw [← getU32_wordsBuf]
  simp only [getU32, Nat.add_assoc]
  rw [bufCopy_in (by omega), bufCopy_in (by omega), bufCopy_in (by omega), bufCopy_in (by omega)]

theorem getU32_bufCopy_out (h : x + 4 ≤ a ∨ a + n ≤ x) :
    getU32 (bufCopy b a src n) x = getU32 b x :=
  getU32_congr fun _ _ _ => bufCopy_out (by omega)

/-- **The strings in the buffer**; nothing else is written. -/
theorem pushStrings_bytes (h4 : sp % 4 = 0) (h32 : sp < 2 ^ 32) (hr : stringsRoom argv ≤ sp) :
    (∀ x, x < sp - stringsRoom argv ∨ sp ≤ x → (pushStrings bufCopy argv b sp).1 x = b x) ∧
      ∀ i (hi : i < argv.length), ∀ j < argv[i].size,
        (pushStrings bufCopy argv b sp).1 (sp - stringsRoom (argv.drop i) + j) = argv[i].get j := by
  induction argv with
  | nil => exact ⟨fun _ _ => rfl, fun i hi => absurd hi (Nat.not_lt_zero i)⟩
  | cons arg argv ih =>
    have e := (pushStrings_ptrs bufCopy b h4 h32 hr).1
    rw [stringsRoom_cons] at hr
    obtain ⟨h1, h2⟩ := ih (by omega)
    have hroom := arg.room_spec
    have hstep : (pushStrings bufCopy (arg :: argv) b sp).1 =
        bufCopy (pushStrings bufCopy argv b sp).1 (sp - stringsRoom (arg :: argv)) arg.get
          arg.size := by
      rw [← e]
      rfl
    rw [hstep, stringsRoom_cons]
    refine ⟨fun x hx => ?_, fun i hi j hj => ?_⟩
    · rw [bufCopy_out (by omega)]
      exact h1 x (by omega)
    · cases i with
      | zero => exact bufCopy_in hj
      | succ i =>
        have hi : i < argv.length := by simpa using hi
        have hle := stringsRoom_drop_le argv (Nat.zero_le i)
        rw [List.drop_zero] at hle
        rw [List.drop_succ_cons, bufCopy_out (by omega)]
        exact h2 i hi j hj

theorem setupArgs_words (h4 : top % 4 = 0) (h32 : top < 2 ^ 32)
    (hA : A + arrayRoom argv + stringsRoom argv = top) (h12 : 12 ≤ A)
    (hr : setupArgs bufCopy b top argv = (b', sp)) :
    sp = A - 12 ∧ getU32 b' sp = argv.length ∧ getU32 b' (sp + 4) = A ∧ getU32 b' (sp + 8) = 0 ∧
      getU32 b' (A + 4 * argv.length) = 0 ∧
      (∀ i < argv.length, getU32 b' (A + 4 * i) = top - stringsRoom (argv.drop i)) ∧
      ∀ i (hi : i < argv.length), ∀ j < argv[i].size,
        b' (top - stringsRoom (argv.drop i) + j) = argv[i].get j := by
  rw [setupArgs_eq h4 h32 hA h12, Prod.mk.injEq] at hr
  obtain ⟨hb, rfl⟩ := hr
  have hroom : arrayRoom argv = 4 * (argv.length + 1) := rfl
  have hle : ∀ i, stringsRoom (argv.drop i) ≤ stringsRoom argv := fun i =>
    stringsRoom_drop_le argv (Nat.zero_le i)
  obtain ⟨-, hlen, hptr⟩ := pushStrings_ptrs bufCopy b h4 h32
    (show stringsRoom argv ≤ top by omega)
  obtain ⟨-, hstr⟩ := pushStrings_bytes (b := b) h4 h32 (show stringsRoom argv ≤ top by omega)
  have e8 : A - 12 + 4 = A - 8 := by omega
  have e4 : A - 12 + 8 = A - 4 := by omega
  have harr : ∀ i ≤ argv.length, getU32 b' (A + 4 * i) =
      (pushStrings bufCopy argv b top).2.2.getD i 0 % 2 ^ 32 := fun i hi => by
    rw [← hb, getU32_bufCopy_out (by omega), getU32_bufCopy_out (by omega),
      getU32_bufCopy_out (by omega)]
    exact getU32_bufCopy _ _ (by omega)
  rw [e8, e4]
  refine ⟨rfl, ?_, ?_, ?_, ?_, fun i hi => ?_, fun i hi j hj => ?_⟩
  · rw [← hb]
    exact (getU32_bufCopy (i := 0) _ _ le_rfl).trans (Nat.mod_eq_of_lt (by omega))
  · rw [← hb, getU32_bufCopy_out (by omega)]
    exact (getU32_bufCopy (i := 0) _ _ le_rfl).trans (Nat.mod_eq_of_lt (by omega))
  · rw [← hb, getU32_bufCopy_out (by omega), getU32_bufCopy_out (by omega)]
    exact (getU32_bufCopy (i := 0) _ _ le_rfl).trans (Nat.zero_mod _)
  · rw [harr _ le_rfl, List.getD_eq_default _ _ hlen.le, Nat.zero_mod]
  · rw [harr i hi.le, hptr i hi, Nat.mod_eq_of_lt (by omega)]
  · have := hle i
    rw [← hb, bufCopy_out (by omega), bufCopy_out (by omega), bufCopy_out (by omega),
      bufCopy_out (by omega)]
    exact hstr i hi j hj

/-- **The layout decodes** if everything fits between `bottom` and `top`. -/
theorem setupArgs_decoded (h4 : top % 4 = 0) (h32 : top < 2 ^ 32)
    (hfit : bottom + 12 + arrayRoom argv + stringsRoom argv ≤ top) :
    ArgsDecoded (setupArgs bufCopy b top argv).1 bottom top
      (setupArgs bufCopy b top argv).2 argv := by
  obtain ⟨A, hA⟩ : ∃ A, A + arrayRoom argv + stringsRoom argv = top :=
    ⟨top - stringsRoom argv - arrayRoom argv, by omega⟩
  obtain ⟨b', sp, hr⟩ : ∃ b' sp, setupArgs bufCopy b top argv = (b', sp) := ⟨_, _, rfl⟩
  obtain ⟨hsp, hargc, harr, henv, hlast, hptr, hstr⟩ := setupArgs_words h4 h32 hA (by omega) hr
  rw [hr]
  have hroom : arrayRoom argv = 4 * (argv.length + 1) := rfl
  have hal := stringsRoom_aligned argv
  have hP : ∀ i < argv.length, argPtr b' sp i = top - stringsRoom (argv.drop i) := fun i hi => by
    rw [argPtr, argvArray, harr, hptr i hi]
  have hle : ∀ i, stringsRoom (argv.drop i) ≤ stringsRoom argv := fun i =>
    stringsRoom_drop_le argv (Nat.zero_le i)
  have hin : ∀ i (hi : i < argv.length), argv[i].size + stringsRoom (argv.drop (i + 1)) ≤
      stringsRoom (argv.drop i) := fun i hi => by
    have := argv[i].room_spec
    rw [stringsRoom_drop hi]
    omega
  -- a string of the list, at its address
  have hobj : ∀ o ∈ argv.mapIdx fun i s => (argPtr b' sp i, s.size), ∃ i, ∃ hi : i < argv.length,
      o = (top - stringsRoom (argv.drop i), argv[i].size) := fun o ho => by
    obtain ⟨i, hi, rfl⟩ := List.mem_mapIdx.1 ho
    exact ⟨i, hi, by rw [hP i hi]⟩
  have hA' : argvArray b' sp = A := harr
  refine ⟨hargc, henv, by rw [argPtr, hA', hlast], fun i hi j hj => ?_, ?_, fun o ho => ?_⟩
  · rw [hP i hi]
    exact hstr i hi j hj
  · have hpair : (argv.mapIdx fun i s => (argPtr b' sp i, s.size)).Pairwise Disjoint2 := by
      rw [List.pairwise_iff_getElem]
      intro i j hi hj hij
      rw [List.length_mapIdx] at hi hj
      rw [List.getElem_mapIdx, List.getElem_mapIdx]
      left
      dsimp only
      rw [hP i hi, hP j hj]
      have h1 := hin i hi
      have h2 := stringsRoom_drop_le argv (show i + 1 ≤ j by omega)
      have h3 := hle i
      omega
    have habove : ∀ o ∈ argv.mapIdx fun i s => (argPtr b' sp i, s.size), A + arrayRoom argv ≤ o.1 :=
      fun o ho => by
        obtain ⟨i, hi, rfl⟩ := hobj o ho
        have := hle i
        dsimp only
        omega
    -- the words of the frame and the array follow each other below the strings
    have hwords : ∀ a n, a + n ≤ A → ∀ o ∈ (A, arrayRoom argv) ::
        argv.mapIdx (fun i s => (argPtr b' sp i, s.size)), a + n ≤ o.1 := fun a n han o ho => by
      rcases List.mem_cons.1 ho with rfl | ho
      · exact han
      · have := habove o ho
        omega
    rw [argObjects, hA']
    refine .cons (List.forall_mem_cons.2 ⟨.inl le_rfl, List.forall_mem_cons.2 ⟨.inl ?_, ?_⟩⟩)
      (.cons (List.forall_mem_cons.2 ⟨.inl le_rfl, ?_⟩) (.cons ?_
        (.cons (fun o ho => .inl (habove o ho)) hpair)))
    · exact Nat.add_le_add_left (by norm_num) sp
    · exact fun o ho => .inl (hwords sp 4 (by omega) o ho)
    · exact fun o ho => .inl (hwords (sp + 4) 4 (by omega) o ho)
    · exact fun o ho => .inl (hwords (sp + 8) 4 (by omega) o ho)
  · rw [argObjects, hA'] at ho
    simp only [List.mem_cons] at ho
    rcases ho with rfl | rfl | rfl | rfl | ho
    all_goals try dsimp only
    any_goals omega
    obtain ⟨i, hi, rfl⟩ := hobj o ho
    have h1 := hin i hi
    have h2 := hle i
    have h3 := stringsRoom_aligned (argv.drop i)
    dsimp only
    omega

end

theorem ArgsDecoded.congr {bottom top : ℕ} {argv : List CStr}
    (h : ArgsDecoded b bottom top sp argv) (hb : ∀ x, bottom ≤ x → x < top → b' x = b x) :
    ArgsDecoded b' bottom top sp argv := by
  have hin := h.inside
  simp only [argObjects, List.forall_mem_cons] at hin
  obtain ⟨⟨-, i1, i2⟩, ⟨-, i3, i4⟩, ⟨-, i5, i6⟩, ⟨-, i7, i8⟩, hstr⟩ := hin
  have hword : ∀ x, bottom ≤ x → x + 4 ≤ top → getU32 b' x = getU32 b x := fun x h1 h2 =>
    getU32_congr fun j h3 h4 => hb j (by omega) (by omega)
  have earr : argvArray b' sp = argvArray b sp := hword _ i3 i4
  have eptr : ∀ i ≤ argv.length, argPtr b' sp i = argPtr b sp i := fun i hi => by
    rw [arrayRoom] at i8
    rw [argPtr, argPtr, earr]
    exact hword _ (by omega) (by omega)
  have eobj : argObjects b' sp argv = argObjects b sp argv := by
    have e : argv.mapIdx (fun i s => (argPtr b' sp i, s.size)) =
        argv.mapIdx (fun i s => (argPtr b sp i, s.size)) := by
      refine List.ext_getElem (by rw [List.length_mapIdx, List.length_mapIdx]) fun i h1 h2 => ?_
      rw [List.length_mapIdx] at h1
      rw [List.getElem_mapIdx, List.getElem_mapIdx, eptr i h1.le]
    rw [argObjects, argObjects, earr, e]
  refine ⟨?_, ?_, ?_, fun i hi j hj => ?_, eobj ▸ h.apart, eobj ▸ h.inside⟩
  · rw [hword sp i1 i2, h.argc]
  · rw [hword (sp + 8) i5 i6, h.envp]
  · rw [eptr _ le_rfl, h.last]
  · obtain ⟨-, h1, h2⟩ := hstr _ (List.mem_mapIdx.2 ⟨i, hi, rfl⟩)
    dsimp only at h1 h2
    rw [eptr i hi.le, hb _ (by omega) (by omega), h.strings i hi j hj]

/-! ## Two memories -/

section
variable {σ τ : Type} {copyTo : σ → ℕ → Buf → ℕ → σ} {copyTo' : τ → ℕ → Buf → ℕ → τ}
  {R : σ → τ → Prop} {s : σ} {t : τ} {sp top bottom : ℕ} {argv : List CStr}

theorem pushStrings_snd (copyTo' : τ → ℕ → Buf → ℕ → τ) (t : τ) :
    (pushStrings copyTo argv s sp).2 = (pushStrings copyTo' argv t sp).2 := by
  induction argv with
  | nil => rfl
  | cons arg argv ih => rw [pushStrings_cons arg argv rfl, pushStrings_cons arg argv rfl, ih]

section
variable
  (hstep : ∀ s t a src n, R s t → bottom ≤ a → a + n ≤ top →
    R (copyTo s a src n) (copyTo' t a src n))
  (hR : R s t)
include hstep hR

/-- **Simulation**: a relation that stores between `bottom` and `top` keep is kept by the
    strings, -/
theorem pushStrings_sim (h4 : sp % 4 = 0) (h32 : sp < 2 ^ 32) (htop : sp ≤ top)
    (hfit : bottom + stringsRoom argv ≤ sp) :
    R (pushStrings copyTo argv s sp).1 (pushStrings copyTo' argv t sp).1 := by
  induction argv with
  | nil => exact hR
  | cons arg argv ih =>
    rw [stringsRoom_cons] at hfit
    have ih := ih (by omega)
    have hroom := arg.room_spec
    have e : sub32 (pushStrings copyTo argv s sp).2.1 arg.size / 4 * 4 =
        sp - stringsRoom argv - arg.room := by
      have hal := stringsRoom_aligned argv
      rw [(pushStrings_ptrs copyTo s h4 h32 (by omega)).1]
      exact sub32_align (by omega) (by omega) (show arg.room ≤ _ by omega)
    have e' := e
    rw [pushStrings_snd copyTo' t] at e'
    rw [pushStrings_cons arg argv e, pushStrings_cons arg argv e']
    exact hstep _ _ _ _ _ ih (by omega) (by omega)

theorem setupArgs_sim (h4 : top % 4 = 0) (h32 : top < 2 ^ 32)
    (hfit : bottom + 12 + arrayRoom argv + stringsRoom argv ≤ top) :
    R (setupArgs copyTo s top argv).1 (setupArgs copyTo' t top argv).1 ∧
      (setupArgs copyTo s top argv).2 = (setupArgs copyTo' t top argv).2 := by
  obtain ⟨A, hA⟩ : ∃ A, A + arrayRoom argv + stringsRoom argv = top :=
    ⟨top - stringsRoom argv - arrayRoom argv, by omega⟩
  have h0 := pushStrings_sim hstep hR h4 h32 le_rfl (show bottom + stringsRoom argv ≤ top by omega)
  rw [setupArgs_eq h4 h32 hA (by omega), setupArgs_eq h4 h32 hA (by omega),
    pushStrings_snd copyTo' t]
  refine ⟨?_, rfl⟩
  have h1 := hstep _ _ A (wordsBuf fun i => (pushStrings copyTo' argv t top).2.2.getD i 0)
    (arrayRoom argv) h0 (by omega) (by omega)
  have h2 := hstep _ _ (A - 4) (wordsBuf fun _ => 0) 4 h1 (by omega) (by omega)
  have h3 := hstep _ _ (A - 8) (wordsBuf fun _ => A) 4 h2 (by omega) (by omega)
  exact hstep _ _ (A - 12) (wordsBuf fun _ => argv.length) 4 h3 (by omega) (by omega)

end

end

/-! ## The stack of a process -/

/-- The byte at each address of address space `p`. -/
def viewOf (m : Mm) (p : ℕ) : Buf := fun va => m.mem (halVmVirtToPhys m p va)

/-- The range from `bottom` to `top` of `p` is mapped to frames of its own that hold no page
    tables, and the window is free. -/
structure StackMapped (m : Mm) (k : ℕ) (V : Finset ℕ) (curr p bottom top : ℕ) : Prop where
  dirs : Dirs m k V
  current : curr ∈ V
  space : p ∈ V
  window : entry m k windowPage = 0
  bound : top < 2 ^ 32
  mapped : ∀ x, bottom ≤ x → x < top → frameAt m p x ≠ 0
  plain : ∀ x, bottom ≤ x → x < top → ¬ IsTable m (dirsOf k V) (procHome k) (frameAt m p x)
  own : ∀ x y, bottom ≤ x → x < top → bottom ≤ y → y < top → frameAt m p x = frameAt m p y →
    x / 4096 = y / 4096

section
variable {m : Mm} {k : ℕ} {V : Finset ℕ} {curr p bottom top a n x : ℕ} {src : Buf}
  {argv : List CStr}

/-- **`vmspace_copy_to` on the stack** is `memcpy` in what the process sees. -/
theorem StackMapped.copyTo (h : StackMapped m k V curr p bottom top) (ha : bottom ≤ a)
    (han : a + n ≤ top) (src : Buf) :
    StackMapped (vmspaceCopyTo m curr p a src n).1 k V curr p bottom top ∧
      ∀ x, bottom ≤ x → x < top →
        viewOf (vmspaceCopyTo m curr p a src n).1 p x = bufCopy (viewOf m p) a src n x := by
  have hb := h.bound
  have hdest : ∀ i < n, destAddr a i = a + i := fun i hi => Nat.mod_eq_of_lt (by omega)
  have h0 : CopiedTo k V p a src m 0 m :=
    ⟨.refl h.dirs, fun g _ _ j _ => .inl ⟨rfl, fun i hi => absurd hi (Nat.not_lt_zero i)⟩⟩
  obtain ⟨hok, hcop⟩ := copyToLoop_spec h.current h.space h.window
    (fun i hi => by rw [hdest i hi]; exact h.plain _ (by omega) (by omega)) n 0 m (by omega) h0
  have e0 : destAddr a 0 = a := Nat.mod_eq_of_lt (by omega)
  rw [e0] at hok hcop
  have hc : CopiedTo k V p a src m n (vmspaceCopyTo m curr p a src n).1 :=
    hcop (hok.2 fun i _ hi => by rw [hdest i hi]; exact h.mapped _ (by omega) (by omega))
  have hp := mem_dirsOf (k := k) h.space
  have hfr : ∀ x < top, frameAt (vmspaceCopyTo m curr p a src n).1 p x = frameAt m p x :=
    fun x hx => hc.maps.frameAt hp (by omega)
  refine ⟨⟨hc.maps.dirs, h.current, h.space, ?_, hb, fun x h1 h2 => ?_, fun x h1 h2 => ?_,
    fun x y h1 h2 h3 h4 e => ?_⟩, fun x h1 h2 => ?_⟩
  · rw [hc.maps.entry k (.inl rfl) _ (by decide)]
    exact h.window
  · rw [hfr x h2]
    exact h.mapped x h1 h2
  · rw [hfr x h2, hc.maps.table]
    exact h.plain x h1 h2
  · rw [hfr x h2, hfr y h4] at e
    exact h.own x y h1 h2 h3 h4 e
  · have hloc : ∀ y, bottom ≤ y → y < top → halVmVirtToPhys m p y = frameAt m p y + y % 4096 :=
      fun y h1 h2 => virtToPhys_of_mapped (frameAt_ne_zero (h.mapped y h1 h2))
    have hal := frameAt_aligned m p
    rw [viewOf, hc.maps.virtToPhys hp (by omega), hloc x h1 h2]
    rcases hc.bytes _ (hal x) (h.plain x h1 h2) (x % 4096) (by omega) with
      ⟨e, hno⟩ | ⟨i, hi, e1, e2⟩
    · -- no byte of the source goes to `x`
      have hx : x < a ∨ a + n ≤ x := by
        by_contra hn
        refine hno (x - a) (by omega) ?_
        rw [hdest _ (by omega), show a + (x - a) = x by omega]
      rw [e, bufCopy_out hx, viewOf, hloc x h1 h2]
    · have hxi : x = a + i := by
        rw [hdest i hi] at e1
        have g1 := hal x
        have g2 := hal (a + i)
        have hpage := h.own (a + i) x (by omega) (by omega) h1 h2 (by omega)
        omega
      rw [e2, hxi, bufCopy_in hi]

/-- The process sees the buffer on its stack. -/
def StackSees (k : ℕ) (V : Finset ℕ) (curr p : ℕ) (m : Mm) (b : Buf) : Prop :=
  StackMapped m k V curr p userStackBottom userStackTop ∧
    ∀ x, userStackBottom ≤ x → x < userStackTop → viewOf m p x = b x

theorem StackSees.copyTo (h : StackSees k V curr p m b) (ha : userStackBottom ≤ a)
    (han : a + n ≤ userStackTop) (src : Buf) :
    StackSees k V curr p (vmspaceCopyTo m curr p a src n).1 (bufCopy b a src n) := by
  obtain ⟨h1, h2⟩ := h.1.copyTo ha han src
  refine ⟨h1, fun x hx hx' => ?_⟩
  rw [h2 x hx hx', bufCopy, bufCopy, memcpy, memcpy, h.2 x hx hx']

theorem setupUserStackArgs_sp (hfit : stringsRoom argv + arrayRoom argv ≤ userStackSize) (m : Mm)
    (curr p : ℕ) : (setupUserStackArgs m curr p userStackTop argv).2 + 12 + arrayRoom argv +
      stringsRoom argv = userStackTop := by
  have hbot : userStackBottom + userStackSize = userStackTop := by decide
  have hlow : 12 ≤ userStackBottom := by decide
  obtain ⟨A, hA⟩ : ∃ A, A + arrayRoom argv + stringsRoom argv = userStackTop :=
    ⟨userStackTop - stringsRoom argv - arrayRoom argv, by omega⟩
  rw [setupUserStackArgs, setupArgs_eq (by decide) (by decide) hA (by omega)]
  dsimp only
  omega

theorem ArgsDecoded.fits (hfit : stringsRoom argv + arrayRoom argv ≤ userStackSize)
    (hd : ArgsDecoded b userStackBottom userStackTop
      (setupUserStackArgs m curr p userStackTop argv).2 argv) :
    stringsRoom argv + arrayRoom argv + 12 ≤ userStackSize := by
  have hsp := (hd.inside _ (List.mem_cons_self ..)).2.1
  have e := setupUserStackArgs_sp hfit m curr p
  have hbot : userStackBottom + userStackSize = userStackTop := by decide
  dsimp only at hsp
  omega

theorem vmspaceMapStack_eq (m : Mm) (vm : Vmspace) (stackTop size : ℕ) :
    ∃ vm', vmspaceMapStack true m vm stackTop size =
      ((vaAllocRegion m vm.arch (sub32 stackTop size) size userPageFlags).1, vm',
        (vaAllocRegion m vm.arch (sub32 stackTop size) size userPageFlags).2) := by
  obtain ⟨vma, hvma⟩ : ∃ vma, vmaCreate true (sub32 stackTop size) size
      (vmaRead ||| vmaWrite ||| vmaUser ||| vmaStack) = some vma := ⟨_, if_pos rfl⟩
  refine ⟨vmspaceAddVma vm vma, ?_⟩
  unfold vmspaceMapStack
  simp only [hvma]

/-- **The stack that `vmspace_map_stack` maps** is mapped to frames of its own. -/
theorem vmspaceMapStack_mapped (h : Dirs m k V) (hc : curr ∈ V) {vm : Vmspace} (hp : vm.arch ∈ V)
    (hwin : entry m k windowPage = 0)
    (hr : (vmspaceMapStack true m vm userStackTop userStackSize).2.2) :
    StackMapped (vmspaceMapStack true m vm userStackTop userStackSize).1 k V curr vm.arch
      userStackBottom userStackTop := by
  obtain ⟨vm', e⟩ := vmspaceMapStack_eq m vm userStackTop userStackSize
  have es : sub32 userStackTop userStackSize = 0xBFFEF * 4096 := by decide
  have en : userStackSize = 16 * 4096 := by decide
  rw [e, es, en] at hr ⊢
  have hpd := mem_dirsOf (k := k) hp
  have hb := vaAllocRegion_true h.tables hpd (h.slots hpd) (by norm_num) hr
  obtain ⟨m', hm'⟩ : ∃ m', (vaAllocRegion m vm.arch (0xBFFEF * 4096) (16 * 4096)
    userPageFlags).1 = m' := ⟨_, rfl⟩
  rw [hm'] at hb ⊢
  have hpage : ∀ x, userStackBottom ≤ x → x < userStackTop → ∃ j < 16, x / 4096 = 0xBFFEF + j :=
    fun x h1 h2 => by
      simp only [userStackBottom, userStackTop, userStackSize] at h1 h2
      exact ⟨x / 4096 - 0xBFFEF, by omega, by omega⟩
  refine ⟨hb.dirs h hp, hc, hp, ?_, by decide, fun x h1 h2 => ?_, fun x h1 h2 => ?_,
    fun x y h1 h2 h3 h4 e => ?_⟩
  · rw [hb.rest k (.inl rfl) _ (by decide) (fun hn => absurd hn.2.1 (by decide))]
    exact hwin
  · obtain ⟨j, hj, e⟩ := hpage x h1 h2
    rw [frameAt, e]
    exact (hb.held j hj).isFrame.ne_zero
  · obtain ⟨j, hj, e⟩ := hpage x h1 h2
    rw [frameAt, e]
    exact hb.plain j hj
  · obtain ⟨i, hi, ei⟩ := hpage x h1 h2
    obtain ⟨j, hj, ej⟩ := hpage y h3 h4
    rw [frameAt, frameAt, ei, ej] at e
    rw [ei, ej, hb.inj i hi j hj e]

end

/-- A new process with its stack. -/
def demoNewStack : Mm :=
  (vmspaceMapStack true (vmspaceCreate (bootMm 0 0) 0x1000).1 ⟨0x102000, []⟩ userStackTop
    userStackSize).1

theorem demoNewStack_mapped :
    StackMapped demoNewStack 0x1000 {0x102000} 0x102000 0x102000 userStackBottom userStackTop := by
  have hd := bootMm_closed.toDirs.created (p := 0x102000) (by decide +kernel)
  have h := bootMm_closed.created hd
  have hp : 0x102000 ∈ ({0x102000} : Finset ℕ) := by decide
  refine vmspaceMapStack_mapped h.toDirs hp (show (Vmspace.mk 0x102000 []).arch ∈ _ from hp)
    h.window ?_
  obtain ⟨vm', e⟩ := vmspaceMapStack_eq (vmspaceCreate (bootMm 0 0) 0x1000).1 ⟨0x102000, []⟩
    userStackTop userStackSize
  have es : sub32 userStackTop userStackSize = 0xBFFEF * 4096 := by decide
  have en : userStackSize = 16 * 4096 := by decide
  rw [e, es, en]
  have hs : Suffices (vmspaceCreate (bootMm 0 0) 0x1000).1 0x102000 0xBFFEF 16 := by
    unfold Suffices
    decide +kernel
  rcases vaAllocRegion_counted h.tables (hd.taken.ok (bootMm_ok 0 0)) (mem_dirsOf hp)
    (h.toDirs.slots (mem_dirsOf hp)) (b := 0xBFFEF) (n := 16) (by norm_num) userPageFlags
    with ⟨-, m', hm⟩ | ⟨j, hj, -, hn, -⟩
  · rw [hm]
  · exact absurd (hs.mono hj) hn

/-- `ls -l` -/
def demoArgv : List CStr := [⟨[108, 115], by simp⟩, ⟨[45, 108], by simp⟩]

/-- One argument of 65527 characters. -/
def demoLong : List CStr :=
  [⟨List.replicate 65527 97, fun _ hc => by rw [List.eq_of_mem_replicate hc]; decide⟩]

theorem stringsRoom_one {s : CStr} (h : s.length = 65527) : stringsRoom [s] = 65528 := by
  rw [stringsRoom_cons, stringsRoom_nil, CStr.room, CStr.size, h]

theorem demoLong_room : stringsRoom demoLong = 65528 ∧ arrayRoom demoLong = 8 :=
  ⟨stringsRoom_one List.length_replicate, rfl⟩

end Kabanos
