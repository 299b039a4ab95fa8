/-
  How many links a path resolution expands.

  The counter of `vfs_walk` is local, and an absolute link leads to a new call: it bounds the
  relative links in a row, not the links of one `vfs_lookup_path`.
-/
import Kabanos.Vfs.Path

namespace Kabanos

variable {α : Type*} {ops : VnodeOps α} {mounts : List (MountPoint α)} {follow : Bool}
  {limit : Option ℕ} {p : Lookup α} {l : List Bool} {x y : Lookup α × List Bool} {w : Walk α}

/-! ## One round -/

theorem strtokR_length (s : Text) : (strtokR s).2.length ≤ s.length ∧
    ((strtokR s).1 ≠ none → (strtokR s).2.length < s.length) := by
  have h1 := (List.dropWhile_sublist (l := s) (· = '/')).length_le
  unfold strtokR
  simp only
  split_ifs with h
  · exact ⟨Nat.zero_le _, fun h => absurd rfl h⟩
  · have h2 := (List.dropWhile_sublist (l := s.dropWhile (· = '/')) (· ≠ '/')).length_le
    have h3 := List.length_pos_of_ne_nil h
    have h4 := List.length_tail (l := (s.dropWhile (· = '/')).dropWhile (· ≠ '/'))
    simp only
    exact ⟨by omega, fun _ => by omega⟩

/-- **What a round does**: it returns, goes down one directory, or expands a link. -/
theorem walkRound_cases (h : walkRound ops mounts follow limit x = some y) :
    ∃ w, x.1 = .walk w ∧ ((∃ v, y = (.ret v, x.2)) ∨
      (w.token ≠ none ∧ ∃ next,
        y = (.walk ⟨next, (strtokR w.saveptr).1, (strtokR w.saveptr).2, w.symlinkDepth⟩, x.2)) ∨
      (w.token ≠ none ∧ limit.any (· < w.symlinkDepth + 1) = false ∧ ∃ target,
        y = (followLink mounts w target,
          x.2 ++ [decide ((newPath target w.saveptr).head? = some '/')]))) := by
  unfold walkRound at h
  rcases hx : x.1 with v | w <;> simp only [hx] at h
  · cases h
  refine ⟨w, rfl, ?_⟩
  rcases ht : w.token with _ | token <;> simp only [ht] at h
  · exact .inl ⟨_, (Option.some.inj h).symm⟩
  rcases hl : ops.lookup w.current token with _ | next <;> simp only [hl] at h
  · exact .inl ⟨_, (Option.some.inj h).symm⟩
  have hne : some token ≠ none := Option.some_ne_none token
  split_ifs at h with h1 h2 h3
  · exact .inl ⟨_, (Option.some.inj h).symm⟩
  · exact .inl ⟨_, (Option.some.inj h).symm⟩
  · rcases hr : ops.readlink next (pathLenMax - 1) with _ | target <;> simp only [hr] at h
    · exact .inl ⟨_, (Option.some.inj h).symm⟩
    · exact .inr (.inr ⟨hne, Bool.eq_false_iff.2 h3, target, (Option.some.inj h).symm⟩)
  · exact .inr (.inl ⟨hne, next, (Option.some.inj h).symm⟩)

theorem walkRound_eq_none (h : walkRound ops mounts follow limit x = none) : ∃ v, x.1 = .ret v := by
  unfold walkRound at h
  rcases hx : x.1 with v | w <;> simp only [hx] at h
  · exact ⟨v, rfl⟩
  rcases ht : w.token with _ | token <;> simp only [ht] at h
  · cases h
  rcases hl : ops.lookup w.current token with _ | next <;> simp only [hl] at h
  · cases h
  split_ifs at h
  rcases hr : ops.readlink next (pathLenMax - 1) with _ | target <;> simp only [hr] at h
  · cases h
  · cases h

theorem walkRound_limit (h : walkRound ops mounts follow none x = some y) (n : ℕ) :
    walkRound ops mounts follow (some n) x = some y ∨
      ∃ w, x.1 = .walk w ∧ n ≤ w.symlinkDepth := by
  unfold walkRound at h ⊢
  rcases hx : x.1 with v | w <;> simp only [hx] at h ⊢
  · exact .inl h
  by_cases hd : n ≤ w.symlinkDepth
  · exact .inr ⟨w, rfl, hd⟩
  left
  have hn : (some n).any (· < w.symlinkDepth + 1) = false := by
    simp only [Option.any_some, decide_eq_false_iff_not]
    omega
  simp only [hn]
  simpa using h

theorem walkRound_free {n : ℕ} (h : walkRound ops mounts follow (some n) x = some y) :
    walkRound ops mounts follow none x = some y ∨ ∃ v, y = (.ret v, x.2) := by
  unfold walkRound at h ⊢
  rcases hx : x.1 with v | w <;> simp only [hx] at h ⊢
  · cases h
  rcases ht : w.token with _ | token <;> simp only [ht] at h ⊢
  · exact .inl h
  rcases hl : ops.lookup w.current token with _ | next <;> simp only [hl] at h ⊢
  · exact .inl h
  simp only [Option.any_none, Bool.false_eq_true, if_false]
  split_ifs at h ⊢
  · exact .inl h
  · exact .inr ⟨_, (Option.some.inj h).symm⟩
  · exact .inl h
  · exact .inl h

/-! ## The counter -/

/-- `symlink_depth` counts the links since the last absolute one. -/
def DepthOk (x : Lookup α × List Bool) : Prop :=
  ∀ w, x.1 = .walk w → w.symlinkDepth ≤ x.2.length ∧
    (w.symlinkDepth = x.2.length ↔ ∀ b ∈ x.2, b = false)

theorem vfsWalk_depth {base : α} {path : Text} (h : vfsWalk base path = .walk w) :
    w.symlinkDepth = 0 ∧ w.saveptr.length ≤ path.length := by
  unfold vfsWalk at h
  split_ifs at h
  cases h
  exact ⟨rfl, (strtokR_length path).1⟩

theorem lookupStart_depth {base : Option α} {path : Text}
    (h : lookupStart mounts path base = .walk w) :
    w.symlinkDepth = 0 ∧ w.saveptr.length ≤ path.length := by
  unfold lookupStart at h
  split_ifs at h
  · rcases hm : vfsFindMountPoint mounts path with _ | mount <;> simp only [hm] at h
    · cases h
    · obtain ⟨h1, h2⟩ := vfsWalk_depth h
      have h3 := (List.dropWhile_sublist (l := path.drop mount.path.length) (· = '/')).length_le
      rw [List.length_drop] at h3
      exact ⟨h1, by omega⟩
  · rcases base with _ | base <;> simp only at h
    · cases h
    · exact vfsWalk_depth h

theorem newPath_length (target remaining : Text) : (newPath target remaining).length ≤ 255 := by
  rw [newPath, List.length_take]
  exact min_le_left _ _

theorem followLink_depth {w' : Walk α} {target : Text} (h : followLink mounts w target = .walk w') :
    w'.saveptr.length ≤ 255 ∧
      (decide ((newPath target w.saveptr).head? = some '/') ∧ w'.symlinkDepth = 0 ∨
        decide ((newPath target w.saveptr).head? = some '/') = false ∧
          w'.symlinkDepth = w.symlinkDepth + 1) := by
  have hn := newPath_length target w.saveptr
  simp only [followLink] at h
  split_ifs at h with hc
  · obtain ⟨h1, h2⟩ := lookupStart_depth h
    exact ⟨h2.trans hn, .inl ⟨decide_eq_true hc, h1⟩⟩
  · cases h
    exact ⟨(strtokR_length _).1.trans hn, .inr ⟨decide_eq_false hc, rfl⟩⟩

theorem DepthOk.round (hx : DepthOk x) (h : walkRound ops mounts follow limit x = some y) :
    DepthOk y := by
  obtain ⟨w, hw, ⟨v, rfl⟩ | ⟨-, next, rfl⟩ | ⟨-, -, target, rfl⟩⟩ := walkRound_cases h
  · intro w' h'
    cases h'
  · intro w' h'
    cases h'
    exact hx w hw
  · intro w' h'
    obtain ⟨h1, h2⟩ := hx w hw
    rw [List.length_append, List.length_singleton]
    obtain ⟨-, ⟨e1, e2⟩ | ⟨e1, e2⟩⟩ := followLink_depth h' <;> rw [e1, e2]
    · refine ⟨Nat.zero_le _, iff_of_false (by omega) fun hall => ?_⟩
      exact Bool.noConfusion (hall true (by simp))
    · refine ⟨by omega, ?_⟩
      rw [Nat.add_right_cancel_iff, h2]
      simp

theorem depthOk_start (mounts : List (MountPoint α)) (path : Text) (base : Option α) :
    DepthOk (lookupStart mounts path base, []) := by
  intro w h
  rw [(lookupStart_depth h).1]
  simp

/-! ## The limit -/

/-- Without a limit the path leads through links of these kinds, at least. -/
def Leads (ops : VnodeOps α) (mounts : List (MountPoint α)) (follow : Bool) (path : Text)
    (base : Option α) (l : List Bool) : Prop :=
  ∃ p, Reach (walkRound ops mounts follow none) (lookupStart mounts path base, []) (p, l)

/-- At most 40 links, or the first 40 are relative. -/
def InLimit (l : List Bool) : Prop := l.length ≤ 40 ∨ ∀ b ∈ l.take 40, b = false

/-- The rounds until the next link. -/
def roundsLeft (x : Lookup α × List Bool) : ℕ :=
  match x.1 with
  | .ret _ => 0
  | .walk w => (40 - x.2.length) * 300 + if w.token = none then 1 else w.saveptr.length + 2

theorem roundsLeft_lt (h : walkRound ops mounts follow limit x = some y) (hy : y.2.length ≤ 40) :
    roundsLeft y < roundsLeft x := by
  obtain ⟨w, hw, ⟨v, rfl⟩ | ⟨ht, next, rfl⟩ | ⟨ht, -, target, rfl⟩⟩ := walkRound_cases h
  · simp only [roundsLeft, hw]
    split_ifs <;> omega
  · obtain ⟨h1, h2⟩ := strtokR_length w.saveptr
    simp only [roundsLeft, hw, if_neg ht]
    split_ifs with h3
    · omega
    · have := h2 h3
      omega
  · simp only [roundsLeft, hw, if_neg ht]
    rcases hf : followLink mounts w target with v | w' <;> simp only
    · omega
    · obtain ⟨h1, -⟩ := followLink_depth hf
      rw [List.length_append, List.length_singleton] at hy ⊢
      split_ifs <;> omega

theorem Reach.trail (h : Reach (walkRound ops mounts follow limit) x y) : x.2 <+: y.2 := by
  induction h with
  | refl => exact List.prefix_rfl
  | tail _ hr ih =>
    obtain ⟨w, -, ⟨v, rfl⟩ | ⟨-, next, rfl⟩ | ⟨-, -, target, rfl⟩⟩ := walkRound_cases hr
    · exact ih
    · exact ih
    · exact ih.trans (List.prefix_append _ _)

theorem Reach.limited (hx : DepthOk x) (h : Reach (walkRound ops mounts follow none) x y) :
    Reach (walkRound ops mounts follow (some 40)) x y ∧ DepthOk y ∨
      (40 ≤ y.2.length ∧ ∀ b ∈ y.2.take 40, b = false) ∨
        ∃ z, Reach (walkRound ops mounts follow (some 40)) x z ∧ 40 < z.2.length := by
  induction h with
  | refl => exact .inl ⟨.refl, hx⟩
  | @tail y y' hxy hr ih =>
    rcases ih with ⟨h1, hd⟩ | ⟨h1, h2⟩ | h
    · rcases walkRound_limit hr 40 with h2 | ⟨w, hw, hn⟩
      · exact .inl ⟨h1.tail h2, hd.round hr⟩
      -- at the limit
      obtain ⟨h3, h4⟩ := hd w hw
      by_cases hl : y.2.length = 40
      · right; left
        obtain ⟨r, hr'⟩ := Reach.trail (.single hr)
        have e : y'.2.take 40 = y.2 := by rw [← hr', ← hl, List.take_left]
        rw [e, ← hr', List.length_append]
        exact ⟨by omega, h4.1 (by omega)⟩
      · exact .inr (.inr ⟨y, h1, by omega⟩)
    · right; left
      obtain ⟨r, hr'⟩ := Reach.trail (.single hr)
      rw [← hr', List.length_append, List.take_append_of_le_length h1]
      exact ⟨by omega, h2⟩
    · exact .inr (.inr h)

theorem vfsLookupPath_yields {path : Text} {base : Option α} {v : Option α} :
    Yields (vfsLookupPath ops mounts path base follow) (v, l) ↔
      Yields (fun n => loop (walkRound ops mounts follow (some maxSymlinkDepth)) n
        (lookupStart mounts path base, [])) (.ret v, l) := by
  refine ⟨fun ⟨n, hn⟩ => ⟨n, fun m hm => ?_⟩, fun ⟨n, hn⟩ => ⟨n, fun m hm => ?_⟩⟩
  · have h := hn m hm
    obtain ⟨⟨p, l'⟩, h1, h2⟩ := Option.bind_eq_some_iff.1 h
    rcases p with v' | w
    · cases h2
      exact h1
    · cases h2
  · have h := hn m hm
    simp only at h
    rw [vfsLookupPath, h]
    rfl

/-- The call with the limit in a state of the one without it, with at most 40 links. -/
structure OnTrail (ops : VnodeOps α) (mounts : List (MountPoint α)) (follow : Bool)
    (s x : Lookup α × List Bool) : Prop where
  short : x.2.length ≤ 40
  free : ∀ w, x.1 = .walk w → Reach (walkRound ops mounts follow none) s x ∧ DepthOk x

theorem OnTrail.round {s : Lookup α × List Bool}
    (hin : ∀ y, Reach (walkRound ops mounts follow none) s y → InLimit y.2)
    (h : OnTrail ops mounts follow s x) (hr : walkRound ops mounts follow (some 40) x = some y) :
    OnTrail ops mounts follow s y := by
  obtain ⟨w, hw, hcases⟩ := walkRound_cases hr
  obtain ⟨hreach, hd⟩ := h.free w hw
  rcases walkRound_free hr with hf | ⟨v, rfl⟩
  swap
  · exact ⟨h.short, fun w' h' => by cases h'⟩
  have hy := hreach.tail hf
  refine ⟨?_, fun _ _ => ⟨hy, hd.round hf⟩⟩
  obtain ⟨v, rfl⟩ | ⟨-, next, rfl⟩ | ⟨-, hlim, target, rfl⟩ := hcases
  · exact h.short
  · exact h.short
  · -- the counter is below the limit, so not all of 40 links were relative
    have hdepth : w.symlinkDepth < 40 := by simpa [Nat.lt_succ_iff] using hlim
    obtain ⟨-, hall⟩ := hd w hw
    rcases hin _ hy with hs | hs
    · exact hs
    · rw [List.length_append, List.length_singleton]
      by_contra hlen
      have h40 : x.2.length = 40 := by
        have := h.short
        omega
      have e : (x.2 ++ [decide ((newPath target w.saveptr).head? = some '/')]).take 40 = x.2 := by
        rw [← h40, List.take_left]
      rw [e] at hs
      have := hall.2 hs
      omega

/-- **Path resolution and the limit on links**: `vfs_lookup_path` returns and expands at most
    `MAX_SYMLINK_DEPTH` links, just when the path leads through that many links at most, or
    the first ones are all relative. -/
theorem lookup_in_limit_iff (ops : VnodeOps α) (mounts : List (MountPoint α)) (path : Text)
    (base : Option α) (follow : Bool) :
    (∃ v l, Yields (vfsLookupPath ops mounts path base follow) (v, l) ∧
      l.length ≤ maxSymlinkDepth) ↔
      ∀ l, Leads ops mounts follow path base l → InLimit l := by
  have hstart := depthOk_start mounts path base
  generalize hs : (lookupStart mounts path base, ([] : List Bool)) = s at hstart
  constructor
  · rintro ⟨v, l, hy, hl⟩ k ⟨p, hp⟩
    rw [vfsLookupPath_yields, hs] at hy
    rw [hs] at hp
    by_contra hk
    rw [InLimit, not_or, not_le] at hk
    have hlong : ∀ z, Reach (walkRound ops mounts follow (some 40)) s z → ¬ 40 < z.2.length :=
      fun z hz h => by
        have := (Reach.trail (hz.yields_iff.1 hy).reach.1).length_le
        exact absurd (h.trans_le this) (not_lt.2 hl)
    rcases Reach.limited hstart hp with ⟨h1, -⟩ | ⟨-, h2⟩ | ⟨z, h1, h2⟩
    · exact hlong _ h1 hk.1
    · exact hk.2 h2
    · exact hlong z h1 h2
  · intro hin
    obtain ⟨t, ht, htl, -⟩ := yields_of_measure (I := OnTrail ops mounts follow s) roundsLeft
      (fun x hx y hr => by
        have hy := hx.round (fun z hz => hin z.2 ⟨z.1, hs ▸ hz⟩) hr
        exact ⟨hy, roundsLeft_lt hr hy.short⟩) (s := s)
      ⟨by rw [← hs]; simp, fun w _ => ⟨.refl, hstart⟩⟩
    obtain ⟨v, hv⟩ := walkRound_eq_none ht.reach.2
    refine ⟨v, t.2, ?_, htl⟩
    rw [vfsLookupPath_yields, hs, ← hv]
    exact ht

/-- A file system with one link `/a`, to `/a`. -/
def loopOps : VnodeOps ℕ :=
  ⟨fun _ name => if name = ['a'] then some 1 else none, fun v => v = 1,
    fun _ n => some (['/', 'a'].take n)⟩

/-- The lookup of `/a` expands the link again and again, and does not return. -/
theorem lookup_absolute_loop :
    ¬ ∃ v l, Yields (vfsLookupPath loopOps [⟨['/'], 0⟩] ['/', 'a'] none true) (v, l) := by
  rintro ⟨v, l, n, hn⟩
  have h := hn n le_rfl
  rw [vfsLookupPath, loop_eq_none (I := fun x => x.1 = .walk ⟨0, some ['a'], [], 0⟩)] at h
  · cases h
  · rintro ⟨p, l⟩ rfl
    exact ⟨(.walk ⟨0, some ['a'], [], 0⟩, l ++ [true]), rfl, rfl⟩
  · rfl

end Kabanos
