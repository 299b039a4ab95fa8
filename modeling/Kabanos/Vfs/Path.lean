/-
  Path resolution: `vfs_find_mount_point`, `vfs_walk` and `vfs_lookup_path` of `vfs.c`, and
  `strtok_r` of `string.c`.

  The operations of the file systems are parameters, and `kmalloc` succeeds.  `vfs_walk` and
  `vfs_lookup_path` call each other as the last thing they do, so a call is one loop; next to
  its state stands the trail of the links that were expanded.
-/
import Kabanos.Lib.Loop

namespace Kabanos

/-- A string: a path, a name or the target of a link. -/
abbrev Text := List Char

/-- `PATH_LEN_MAX` and `MAX_SYMLINK_DEPTH` -/
def pathLenMax : ℕ := 256
def maxSymlinkDepth : ℕ := 40

/-- What `vfs_walk` uses of `vnode_t` and `vnode_ops`; `readlink` has the size of the
    buffer. -/
structure VnodeOps (α : Type*) where
  lookup : α → Text → Option α
  isLnk : α → Bool
  readlink : α → ℕ → Option Text

structure MountPoint (α : Type*) where
  path : Text
  fsRoot : α

variable {α : Type*}

/-- `vfs_find_mount_point`: the longest path that `path` begins with. -/
def vfsFindMountPoint (mounts : List (MountPoint α)) (path : Text) : Option (MountPoint α) :=
  mounts.foldl (fun best mount =>
    let after := (path.drop mount.path.length).head?
    if mount.path <+: path ∧ (after = some '/' ∨ after = none ∨ mount.path = ['/']) ∧
        (best.map (·.path.length)).getD 0 < mount.path.length then some mount
    else best) none

/-- The selected mount is in the table, and its path ends where a component of the path does. -/
theorem vfsFindMountPoint_spec {mounts : List (MountPoint α)} {path : Text} {mount : MountPoint α}
    (h : vfsFindMountPoint mounts path = some mount) : mount ∈ mounts ∧ mount.path <+: path ∧
      ((path.drop mount.path.length).head? = some '/' ∨
        (path.drop mount.path.length).head? = none ∨ mount.path = ['/']) := by
  refine List.foldlRecOn (motive := fun best => ∀ m, best = some m → m ∈ mounts ∧ m.path <+: path ∧
      ((path.drop m.path.length).head? = some '/' ∨ (path.drop m.path.length).head? = none ∨
        m.path = ['/'])) mounts _ (by simp) (fun best ih m hm m' h => ?_) mount h
  simp only at h
  split at h
  · rename_i hc
    obtain rfl := Option.some.inj h
    exact ⟨hm, hc.1, hc.2.1⟩
  · exact ih m' h

/-- `strtok_r` with the delimiter `/`: the token and the text behind it. -/
def strtokR (str : Text) : Option Text × Text :=
  let str := str.dropWhile (· = '/')
  if str = [] then (none, [])
  else (some (str.takeWhile (· ≠ '/')), (str.dropWhile (· ≠ '/')).tail)

/-- The variables of `vfs_walk` in its loop. -/
structure Walk (α : Type*) where
  current : α
  token : Option Text
  saveptr : Text
  symlinkDepth : ℕ
  deriving DecidableEq

/-- A lookup that has returned, or is in the loop of `vfs_walk`. -/
inductive Lookup (α : Type*)
  | ret (vnode : Option α)
  | walk (w : Walk α)
  deriving DecidableEq

/-- `vfs_walk`, up to its loop. -/
def vfsWalk (baseNode : α) (relativePath : Text) : Lookup α :=
  if relativePath = [] then .ret (some baseNode)
  else .walk ⟨baseNode, (strtokR relativePath).1, (strtokR relativePath).2, 0⟩

/-- `vfs_lookup_path`, up to the loop of `vfs_walk`. -/
def lookupStart (mounts : List (MountPoint α)) (path : Text) (baseNode : Option α) : Lookup α :=
  if path.head? = some '/' then
    match vfsFindMountPoint mounts path with
    | none => .ret none
    | some mount => vfsWalk mount.fsRoot ((path.drop mount.path.length).dropWhile (· = '/'))
  else
    match baseNode with
    | none => .ret none
    | some baseNode => vfsWalk baseNode path

/-- `new_path`: the target and what remains of the path, in a buffer. -/
def newPath (target remaining : Text) : Text :=
  (if remaining = [] then target else target ++ '/' :: remaining).take (pathLenMax - 1)

/-- `vfs_walk` after it has read a link. -/
def followLink (mounts : List (MountPoint α)) (w : Walk α) (target : Text) : Lookup α :=
  let path := newPath target w.saveptr
  if path.head? = some '/' then lookupStart mounts path none
  else .walk ⟨w.current, (strtokR path).1, (strtokR path).2, w.symlinkDepth + 1⟩

/-- One round of the loop of `vfs_walk`.  A link on the trail is `true` if the walk begins
    again at the root.  The limit is `MAX_SYMLINK_DEPTH`; without it, this is the walk that
    expands all links. -/
def walkRound (ops : VnodeOps α) (mounts : List (MountPoint α)) (followFinalSymlink : Bool)
    (limit : Option ℕ) (x : Lookup α × List Bool) : Option (Lookup α × List Bool) :=
  match x.1 with
  | .ret _ => none
  | .walk w =>
    match w.token with
    | none => some (.ret (some w.current), x.2)
    | some token =>
      match ops.lookup w.current token with
      | none => some (.ret none, x.2)
      | some next =>
        if ops.isLnk next then
          if w.saveptr = [] ∧ followFinalSymlink = false then some (.ret (some next), x.2)
          else if limit.any (· < w.symlinkDepth + 1) then some (.ret none, x.2)
          else
            match ops.readlink next (pathLenMax - 1) with
            | none => some (.ret none, x.2)
            | some target => some (followLink mounts w target,
                x.2 ++ [decide ((newPath target w.saveptr).head? = some '/')])
        else
          some (.walk ⟨next, (strtokR w.saveptr).1, (strtokR w.saveptr).2, w.symlinkDepth⟩, x.2)

/-- `vfs_lookup_path` and the trail of the links that it expands. -/
def vfsLookupPath (ops : VnodeOps α) (mounts : List (MountPoint α)) (path : Text)
    (baseNode : Option α) (followFinalSymlink : Bool) (n : ℕ) : Option (Option α × List Bool) :=
  (loop (walkRound ops mounts followFinalSymlink (some maxSymlinkDepth)) n
    (lookupStart mounts path baseNode, [])).bind fun x =>
      match x.1 with
      | .ret vnode => some (vnode, x.2)
      | .walk _ => none

end Kabanos
