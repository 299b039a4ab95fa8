/-
  What a path stands for.

  `Resolves` resolves the components of a path one by one and puts the whole target of a
  link in the place of the link.  `vfs_lookup_path` does the same on texts in a buffer; they
  agree as long as nothing is cut off there and the texts have the components they should.

  Mounts make one tree of the file systems (`MountedTree`).  `vfs_lookup_path` looks for a mount
  where it begins with an absolute path, and nowhere else: a directory that it comes to by
  walking, and on which something is mounted, is taken for the directory below the mount.
-/
import Kabanos.Lib.Tokens
import Kabanos.Vfs.Links

namespace Kabanos

def components (path : Text) : List Text := (path.splitOnP (· = '/')).filter (· ≠ [])

variable {α : Type*}

/-- From directory `v` the components lead to a vnode; `target` are the targets of the links. -/
inductive Resolves (ops : VnodeOps α) (target : α → Text) (root : α) (follow : Bool) :
    α → List Text → α → Prop
  | here (v : α) : Resolves ops target root follow v [] v
  | down {v next r : α} {name : Text} {rest : List Text} : ops.lookup v name = some next →
      ops.isLnk next = false → Resolves ops target root follow next rest r →
      Resolves ops target root follow v (name :: rest) r
  | final {v next : α} {name : Text} : ops.lookup v name = some next → ops.isLnk next = true →
      follow = false → Resolves ops target root follow v [name] next
  | relative {v next r : α} {name : Text} {rest : List Text} {c : Char} :
      ops.lookup v name = some next → ops.isLnk next = true → (rest ≠ [] ∨ follow = true) →
      (target next).head? = some c → c ≠ '/' →
      Resolves ops target root follow v (components (target next) ++ rest) r →
      Resolves ops target root follow v (name :: rest) r
  | absolute {v next r : α} {name : Text} {rest : List Text} :
      ops.lookup v name = some next → ops.isLnk next = true → (rest ≠ [] ∨ follow = true) →
      (target next).head? = some '/' →
      Resolves ops target root follow root (components (target next) ++ rest) r →
      Resolves ops target root follow v (name :: rest) r

/-- A path from the root or from the base directory. -/
def ResolvesPath (ops : VnodeOps α) (target : α → Text) (root : α) (base : Option α) (follow : Bool)
    (path : Text) (r : α) : Prop :=
  if path.head? = some '/' then Resolves ops target root follow root (components path) r
  else ∃ v, base = some v ∧ Resolves ops target root follow v (components path) r

theorem resolves_cons {ops : VnodeOps α} {target : α → Text} {root : α} {follow : Bool} {v r : α}
    {name : Text} {rest : List Text} (h : Resolves ops target root follow v (name :: rest) r) :
    ∃ next, ops.lookup v name = some next ∧
      (ops.isLnk next = false ∧ Resolves ops target root follow next rest r ∨
        ops.isLnk next ∧ (rest = [] ∧ follow = false ∧ r = next ∨
          (rest ≠ [] ∨ follow) ∧ ∃ c, (target next).head? = some c ∧
            Resolves ops target root follow (if c = '/' then root else v)
              (components (target next) ++ rest) r)) := by
  cases h with
  | down h1 h2 h3 => exact ⟨_, h1, .inl ⟨h2, h3⟩⟩
  | final h1 h2 h3 => exact ⟨_, h1, .inr ⟨h2, .inl ⟨rfl, h3, rfl⟩⟩⟩
  | relative h1 h2 h3 h4 h5 h6 => exact ⟨_, h1, .inr ⟨h2, .inr ⟨h3, _, h4, by rwa [if_neg h5]⟩⟩⟩
  | absolute h1 h2 h3 h4 h5 => exact ⟨_, h1, .inr ⟨h2, .inr ⟨h3, _, h4, by rwa [if_pos rfl]⟩⟩⟩

/-! ## Components and tokens -/

theorem components_eq (s : Text) : components s = tokens (· = '/') s := by
  refine congrArg (fun f => List.filter f _) (funext fun t => ?_)
  cases t <;> rfl

theorem strtokR_eq (s : Text) : strtokR s = nextToken (· = '/') s := by
  simp [strtokR, nextToken]

@[simp]
theorem components_nil : components [] = [] := by rw [components_eq, tokens_nil]

theorem components_append (a b : Text) :
    components (a ++ '/' :: b) = components a ++ components b := by
  simp only [components_eq]
  exact tokens_append (by simp) a b

theorem components_slash (s : Text) : components ('/' :: s) = components s := by
  have := components_append [] s
  simpa using this

theorem components_dropWhile (s : Text) : components (s.dropWhile (· = '/')) = components s := by
  rw [components_eq, components_eq, tokens_dropWhile]

/-- **`strtok_r` takes the components one by one.** -/
theorem components_strtokR (s : Text) :
    components s = (strtokR s).1.toList ++ components (strtokR s).2 := by
  rw [components_eq, components_eq, strtokR_eq]
  exact tokens_next _ s

/-! ## The tree -/

/-- The names lead from directory `v` to `r`, over no link. -/
def Descends (lookup : α → Text → Option α) (isLnk : α → Bool) : α → List Text → α → Prop
  | v, [], r => v = r
  | v, name :: names, r =>
    ∃ next, lookup v name = some next ∧ isLnk next = false ∧ Descends lookup isLnk next names r

/-- The directory tree that a mount table makes of file systems: the root of a mounted file system
    is where the path of its mount leads. -/
structure MountedTree (ops : VnodeOps α) (mounts : List (MountPoint α)) where
  lookup : α → Text → Option α
  root : α
  mounted : ∀ mount ∈ mounts, Descends lookup ops.isLnk root (components mount.path) mount.fsRoot

/-- The operations on the tree. -/
def MountedTree.ops {ops : VnodeOps α} {mounts : List (MountPoint α)} (T : MountedTree ops mounts) :
    VnodeOps α := { ops with lookup := T.lookup }

/-! ## The way of a lookup -/

/-- A point on the way of a lookup: what of the path is left in which directory, and how many
    relative links have been expanded since the last absolute path. -/
structure Point (α : Type*) where
  dir : α
  rest : Text
  depth : ℕ
  deriving DecidableEq

/-- The target of a link and the path behind the link. -/
def expanded (target rest : Text) : Text := if rest = [] then target else target ++ '/' :: rest

section
variable (ops : VnodeOps α) (target : α → Text) (mounts : List (MountPoint α)) (follow : Bool)

def startPoint (path : Text) (base : Option α) : Option (Point α) :=
  if path.head? = some '/' then
    (vfsFindMountPoint mounts path).map fun mount =>
      ⟨mount.fsRoot, path.drop mount.path.length, 0⟩
  else base.map fun v => ⟨v, path, 0⟩

/-- The link `next`, with `rest` behind it, is expanded. -/
def Expands (next : α) (rest : Text) (depth : ℕ) : Prop :=
  (rest = [] → follow = true) ∧ depth < maxSymlinkDepth ∧
    (ops.readlink next (pathLenMax - 1)).isSome = true

instance (next : α) (rest : Text) (depth : ℕ) : Decidable (Expands ops follow next rest depth) :=
  inferInstanceAs (Decidable (_ ∧ _ ∧ _))

/-- The next point: one component further, or at the target of a link. -/
def Point.next (p : Point α) : Option (Point α) :=
  match (strtokR p.rest).1 with
  | none => none
  | some name =>
    match ops.lookup p.dir name with
    | none => none
    | some next =>
      let rest := (strtokR p.rest).2
      if ops.isLnk next = false then some ⟨next, rest, p.depth⟩
      else if ¬ Expands ops follow next rest p.depth then none
      else if (target next).head? = some '/' then
        startPoint mounts (expanded (target next) rest) none
      else some ⟨p.dir, expanded (target next) rest, p.depth + 1⟩

end

section
variable {ops : VnodeOps α} {target : α → Text} {mounts : List (MountPoint α)} {follow : Bool}
  {path : Text} {base : Option α} {r : α} {x y : Lookup α × List Bool} {w : Walk α} {p : Point α}
  (T : MountedTree ops mounts)

/-- At this point nothing is mounted on what the next component leads to; and if that is a link
    and is expanded, then it has a target, the new path fits into the buffer, and there is more
    behind the link than slashes if a final link is not to be followed. -/
def Point.Safe (target : α → Text) (follow : Bool) (p : Point α) : Prop :=
  ∀ name next, (strtokR p.rest).1 = some name → ops.lookup p.dir name = some next →
    T.lookup p.dir name = some next ∧
      (ops.isLnk next = true → Expands ops follow next (strtokR p.rest).2 p.depth →
        target next ≠ [] ∧ (expanded (target next) (strtokR p.rest).2).length < pathLenMax ∧
          (follow = false → components (strtokR p.rest).2 ≠ []))

/-- All points on the way of the lookup are safe. -/
def SafeLookup (target : α → Text) (path : Text) (base : Option α) (follow : Bool) : Prop :=
  ∀ p₀, startPoint mounts path base = some p₀ →
    ∀ p, Reach (Point.next ops target mounts follow) p₀ p → p.Safe T target follow

/-- The loop of `vfs_walk` is at point `p`. -/
structure Walk.At (w : Walk α) (p : Point α) : Prop where
  dir : w.current = p.dir
  token : w.token = (strtokR p.rest).1
  saveptr : w.saveptr = (strtokR p.rest).2
  depth : w.symlinkDepth = p.depth

theorem strtokR_dropWhile (s : Text) : strtokR (s.dropWhile (· = '/')) = strtokR s := by
  simp only [strtokR, List.dropWhile_idempotent]

theorem lookupStart_at (h : lookupStart mounts path base = .walk w) :
    ∃ p, startPoint mounts path base = some p ∧ w.At p := by
  unfold lookupStart at h
  unfold startPoint
  split_ifs at h ⊢ with hp
  · rcases hm : vfsFindMountPoint mounts path with _ | mount <;> simp only [hm] at h
    · cases h
    · refine ⟨_, rfl, ?_⟩
      rw [vfsWalk, strtokR_dropWhile] at h
      split_ifs at h
      cases h
      exact ⟨rfl, rfl, rfl, rfl⟩
  · rcases base with _ | v <;> simp only at h
    · cases h
    · refine ⟨_, rfl, ?_⟩
      rw [vfsWalk] at h
      split_ifs at h
      cases h
      exact ⟨rfl, rfl, rfl, rfl⟩

/-! ## Where it leads -/

/-- What is still to be resolved leads to `r`. -/
def LeadsTo (target : α → Text) (follow : Bool) (r : α) : Lookup α → Prop
  | .ret v => v = some r
  | .walk w =>
    match w.token with
    | none => w.current = r
    | some token => Resolves T.ops target T.root follow w.current (token :: components w.saveptr) r

variable {T}

theorem strtokR_leadsTo {v : α} {d : ℕ} (h : LeadsTo T target follow r
    (.walk ⟨v, (strtokR path).1, (strtokR path).2, d⟩)) :
    Resolves T.ops target T.root follow v (components path) r := by
  rw [components_strtokR]
  rcases ht : (strtokR path).1 with _ | token <;> simp only [LeadsTo, ht] at h
  · have hs : (strtokR path).2 = [] := by
      simp only [strtokR] at ht ⊢
      split_ifs at ht ⊢
      rfl
    rw [hs, h]
    exact .here r
  · exact h

theorem vfsWalk_leadsTo {v : α} (h : LeadsTo T target follow r (vfsWalk v path)) :
    Resolves T.ops target T.root follow v (components path) r := by
  unfold vfsWalk at h
  split_ifs at h with hp
  · rw [hp, components_nil]
    cases h
    exact .here _
  · exact strtokR_leadsTo h

theorem Descends.resolves {names rest : List Text} {v v' : α}
    (h : Descends T.lookup ops.isLnk v names v')
    (h' : Resolves T.ops target T.root follow v' rest r) :
    Resolves T.ops target T.root follow v (names ++ rest) r := by
  induction names generalizing v with
  | nil =>
    cases h
    exact h'
  | cons name names ih =>
    obtain ⟨next, h1, h2, h3⟩ := h
    exact .down h1 h2 (ih h3)

/-- The components of the selected mount come first in the path. -/
theorem components_mount {mount : MountPoint α} (h : vfsFindMountPoint mounts path = some mount) :
    components path = components mount.path ++ components (path.drop mount.path.length) := by
  obtain ⟨-, ⟨rest, rfl⟩, hend⟩ := vfsFindMountPoint_spec h
  rw [List.drop_left] at hend ⊢
  rcases hend with hs | hn | hroot
  · obtain ⟨rest, rfl⟩ : ∃ t, rest = '/' :: t := by
      cases rest with
      | nil => cases hs
      | cons c t => exact ⟨t, by rw [Option.some.inj hs]⟩
    rw [components_append, components_slash]
  · rw [List.head?_eq_none_iff.1 hn, List.append_nil, components_nil, List.append_nil]
  · have h1 : components ['/'] = [] := components_slash []
    rw [hroot, h1, List.nil_append]
    exact components_slash rest

theorem lookupStart_leadsTo (h : LeadsTo T target follow r (lookupStart mounts path base)) :
    ResolvesPath T.ops target T.root base follow path r := by
  unfold lookupStart at h
  unfold ResolvesPath
  split_ifs at h ⊢ with hp
  · rcases hm : vfsFindMountPoint mounts path with _ | mount <;> simp only [hm] at h
    · cases h
    · have hd := T.mounted mount (vfsFindMountPoint_spec hm).1
      have hw := vfsWalk_leadsTo h
      rw [components_dropWhile] at hw
      rw [components_mount hm]
      exact hd.resolves hw
  · rcases base with _ | v <;> simp only at h
    · cases h
    · exact ⟨v, rfl, vfsWalk_leadsTo h⟩

theorem newPath_eq {t remaining : Text} (h : (expanded t remaining).length < pathLenMax) :
    newPath t remaining = expanded t remaining :=
  List.take_of_length_le (Nat.le_sub_one_of_lt h)

theorem components_expanded (t remaining : Text) :
    components (expanded t remaining) = components t ++ components remaining := by
  unfold expanded
  split_ifs with hr
  · rw [hr, components_nil, List.append_nil]
  · exact components_append t remaining

theorem length_le_expanded (t remaining : Text) : t.length ≤ (expanded t remaining).length := by
  unfold expanded
  split_ifs
  · exact le_rfl
  · rw [List.length_append]
    exact Nat.le_add_right _ _

theorem head?_expanded {t : Text} (h : t ≠ []) (remaining : Text) :
    (expanded t remaining).head? = t.head? := by
  unfold expanded
  split_ifs
  · rfl
  · exact List.head?_append_of_ne_nil _ h

/-- **A link that is expanded at a safe point**: the walk comes to the next point, and what is left
    there leads where the link does. -/
theorem followLink_sound (hat : w.At p) {name : Text} {next : α} (hn : w.token = some name)
    (hl : ops.lookup w.current name = some next) (hlnk : ops.isLnk next = true)
    (he : Expands ops follow next w.saveptr w.symlinkDepth)
    (hread : ∀ v n t, ops.readlink v n = some t → t = (target v).take n)
    (hs : p.Safe T target follow) {t : Text} (ht : ops.readlink next (pathLenMax - 1) = some t) :
    (∀ w', followLink mounts w t = .walk w' →
      ∃ p', p.next ops target mounts follow = some p' ∧ w'.At p') ∧
    (LeadsTo T target follow r (followLink mounts w t) → LeadsTo T target follow r (.walk w)) := by
  rw [hat.dir] at hl
  rw [hat.token] at hn
  rw [hat.saveptr, hat.depth] at he
  obtain ⟨hT, hsafe⟩ := hs name next hn hl
  obtain ⟨g1, g2, g3⟩ := hsafe hlnk he
  obtain rfl : t = target next := by
    rw [hread _ _ _ ht, List.take_of_length_le]
    exact Nat.le_sub_one_of_lt ((length_le_expanded _ _).trans_lt g2)
  have hpath := newPath_eq g2
  have hhead := head?_expanded g1 (strtokR p.rest).2
  have hnext : p.next ops target mounts follow = if (target next).head? = some '/' then
      startPoint mounts (expanded (target next) (strtokR p.rest).2) none
      else some ⟨p.dir, expanded (target next) (strtokR p.rest).2, p.depth + 1⟩ := by
    have hb : ¬ ops.isLnk next = false := by rw [hlnk]; exact Bool.noConfusion
    simp only [Point.next, hn, hl, if_neg hb, if_neg (not_not.2 he)]
  have hrest : components (strtokR p.rest).2 ≠ [] ∨ follow = true := by
    cases follow with
    | true => exact .inr rfl
    | false => exact .inl (g3 rfl)
  simp only [followLink, hpath, hhead, hnext, LeadsTo, hat.token, hn, hat.dir, hat.saveptr]
  split_ifs with hc
  · refine ⟨fun w' hw' => lookupStart_at hw', fun h => ?_⟩
    have hr := lookupStart_leadsTo h
    rw [ResolvesPath, if_pos (hhead.trans hc), components_expanded] at hr
    exact .absolute hT hlnk hrest hc hr
  · refine ⟨fun w' hw' => ⟨_, rfl, ?_⟩, fun h => ?_⟩
    · cases hw'
      exact ⟨rfl, rfl, rfl, by rw [hat.depth]⟩
    · obtain ⟨c, u, hcu⟩ := List.exists_cons_of_ne_nil g1
      have hr : Resolves T.ops target T.root follow _
          (components (expanded (target next) (strtokR p.rest).2)) r := strtokR_leadsTo h
      rw [components_expanded] at hr
      refine .relative hT hlnk hrest (by rw [hcu]; rfl) (fun e => hc ?_) hr
      rw [hcu, e]
      rfl

/-- **One round of the walk** at a safe point. -/
theorem walkRound_sound (hat : w.At p) (hx : x.1 = .walk w) (hs : p.Safe T target follow)
    (hread : ∀ v n t, ops.readlink v n = some t → t = (target v).take n)
    (hr : walkRound ops mounts follow (some maxSymlinkDepth) x = some y) :
    (∀ w', y.1 = .walk w' → ∃ p', p.next ops target mounts follow = some p' ∧ w'.At p') ∧
      (LeadsTo T target follow r y.1 → LeadsTo T target follow r x.1) := by
  unfold walkRound at hr
  simp only [hx] at hr ⊢
  rcases ht : w.token with _ | token <;> simp only [ht] at hr
  · cases hr
    refine ⟨fun w' hw' => (by cases hw'), fun h => ?_⟩
    simp only [LeadsTo, ht]
    exact Option.some.inj h
  rcases hl : ops.lookup w.current token with _ | next <;> simp only [hl] at hr
  · cases hr
    exact ⟨fun w' hw' => (by cases hw'), fun h => (by cases h)⟩
  have hT : T.lookup w.current token = some next := by
    rw [hat.dir] at hl ⊢
    exact (hs token next (hat.token ▸ ht) hl).1
  split_ifs at hr with h1 h2 h3
  · cases hr
    refine ⟨fun w' hw' => (by cases hw'), fun h => ?_⟩
    cases h
    simp only [LeadsTo, ht]
    rw [h2.1, components_nil]
    exact .final hT h1 h2.2
  · cases hr
    exact ⟨fun w' hw' => (by cases hw'), fun h => (by cases h)⟩
  · rcases hrd : ops.readlink next (pathLenMax - 1) with _ | t <;> simp only [hrd] at hr
    · cases hr
      exact ⟨fun w' hw' => (by cases hw'), fun h => (by cases h)⟩
    cases hr
    have he : Expands ops follow next w.saveptr w.symlinkDepth := by
      refine ⟨fun h => ?_, ?_, by rw [hrd]; rfl⟩
      · exact Bool.eq_true_of_not_eq_false fun hf => h2 ⟨h, hf⟩
      · simpa using h3
    exact followLink_sound hat ht hl h1 he hread hs hrd
  · cases hr
    refine ⟨fun w' hw' => ⟨⟨next, (strtokR p.rest).2, p.depth⟩, ?_, ?_⟩, fun h => ?_⟩
    · have hn : (strtokR p.rest).1 = some token := hat.token ▸ ht
      rw [hat.dir] at hl
      simp only [Point.next, hn, hl, if_pos (Bool.eq_false_iff.2 h1)]
    · cases hw'
      rw [hat.saveptr, hat.depth]
      exact ⟨rfl, rfl, rfl, rfl⟩
    · simp only [LeadsTo, ht]
      exact .down hT (Bool.eq_false_iff.2 h1) (strtokR_leadsTo h)

end

/-- In directory `0` are `e`, a link with an empty target, the directory `d`, the link `l` to it and
    the directory `m`; in `d` is a file `f`, and in `m` a file `g`.  In directory `10` are the link
    `k` to `/l/f` and a file `g`. -/
def demoTree : VnodeOps ℕ where
  lookup
    | 0, ['e'] => some 1
    | 0, ['d'] => some 2
    | 2, ['f'] => some 3
    | 0, ['l'] => some 4
    | 0, ['m'] => some 5
    | 5, ['g'] => some 6
    | 10, ['k'] => some 11
    | 10, ['g'] => some 12
    | _, _ => none
  isLnk v := v = 1 ∨ v = 4 ∨ v = 11
  readlink v n :=
    some ((if v = 4 then ['d'] else if v = 11 then ['/', 'l', '/', 'f'] else []).take n)

def demoTarget (v : ℕ) : Text :=
  if v = 4 then ['d'] else if v = 11 then ['/', 'l', '/', 'f'] else []

/-- Directory `10` is mounted at `/m`. -/
def demoMountPoints : List (MountPoint ℕ) := [⟨['/', 'm'], 10⟩, ⟨['/'], 0⟩]

def demoMounted : MountedTree demoTree demoMountPoints where
  lookup v name := if v = 0 ∧ name = ['m'] then some 10 else demoTree.lookup v name
  root := 0
  mounted := by
    have h1 : components ['/', 'm'] = [['m']] := by decide +kernel
    have h2 : components ['/'] = [] := by decide +kernel
    intro mount hm
    rcases List.mem_pair.1 hm with rfl | rfl
    · rw [h1]
      exact ⟨10, rfl, rfl, rfl⟩
    · rw [h2]
      rfl

/-- A path `/l/f` with many slashes. -/
def demoSlashes : Text := ['/', 'l'] ++ List.replicate 300 '/' ++ ['f']

/-- The way of the lookup of `/m/k`. -/
def demoWay : List (Point ℕ) :=
  [⟨10, ['/', 'k'], 0⟩, ⟨0, ['l', '/', 'f'], 0⟩, ⟨0, ['d', '/', 'f'], 1⟩, ⟨2, ['f'], 1⟩, ⟨3, [], 1⟩]

theorem demoMounted_safe : SafeLookup demoMounted demoTarget ['/', 'm', '/', 'k'] none true := by
  intro p₀ h0 p hp
  have hclosed : ∀ x ∈ demoWay, ((Point.next demoTree demoTarget demoMountPoints true x).all
      fun y => demoWay.contains y) := by decide +kernel
  have hstart :
      startPoint demoMountPoints ['/', 'm', '/', 'k'] none = some ⟨10, ['/', 'k'], 0⟩ := by
    decide +kernel
  rw [hstart] at h0
  have hm := Reach.mem (L := demoWay) (fun x hx y hy => by
    have := hclosed x hx
    rw [hy] at this
    simpa using this) (by cases h0; decide) hp
  intro name next hn hl
  simp only [demoWay, List.mem_cons, List.not_mem_nil, or_false] at hm
  rcases hm with rfl | rfl | rfl | rfl | rfl <;> cases hn <;> cases hl
  · exact ⟨rfl, fun _ _ => ⟨by decide, by decide +kernel, by decide⟩⟩
  · exact ⟨rfl, fun _ _ => ⟨by decide, by decide +kernel, by decide⟩⟩
  · exact ⟨rfl, fun h => by cases h⟩
  · exact ⟨rfl, fun h => by cases h⟩

theorem demoTree_empty {r : ℕ} : ¬ Resolves demoMounted.ops demoTarget 0 true 0 [['e']] r := by
  intro h
  obtain ⟨next, e, ⟨h1, -⟩ | ⟨-, ⟨-, h1, -⟩ | ⟨-, c, h1, -⟩⟩⟩ := resolves_cons h <;>
    cases e <;> cases h1

theorem demoTree_link {r : ℕ} (h : Resolves demoMounted.ops demoTarget 0 false 0 [['l']] r) :
    r = 4 := by
  obtain ⟨next, e, ⟨h1, -⟩ | ⟨-, ⟨-, -, h1⟩ | ⟨h1, -⟩⟩⟩ := resolves_cons h <;> cases e
  · cases h1
  · exact h1
  · exact absurd h1 (by simp)

/-- Two names that lead over a directory to a file. -/
theorem resolves_two {ops : VnodeOps ℕ} {follow : Bool} {root v r d f : ℕ} {a b : Text}
    (h : Resolves ops demoTarget root follow v [a, b] r) (h1 : ops.lookup v a = some d)
    (h2 : ops.isLnk d = false) (h3 : ops.lookup d b = some f) (h4 : ops.isLnk f = false) :
    r = f := by
  obtain ⟨next, e, ⟨-, h⟩ | ⟨hl, -⟩⟩ := resolves_cons h <;> rw [h1] at e <;> cases e
  swap
  · rw [h2] at hl
    cases hl
  obtain ⟨next, e, ⟨-, h⟩ | ⟨hl, -⟩⟩ := resolves_cons h <;> rw [h3] at e <;> cases e
  swap
  · rw [h4] at hl
    cases hl
  cases h
  rfl

theorem demoTree_file {r : ℕ} (h : Resolves demoMounted.ops demoTarget 0 true 0 [['l'], ['f']] r) :
    r = 3 := by
  obtain ⟨next, e, ⟨h1, -⟩ | ⟨-, ⟨-, h1, -⟩ | ⟨-, c, hc, h1⟩⟩⟩ := resolves_cons h <;> cases e
  · cases h1
  · cases h1
  cases hc
  exact resolves_two (h1 : Resolves _ _ _ _ _ [['d'], ['f']] r) rfl rfl rfl rfl

end Kabanos
