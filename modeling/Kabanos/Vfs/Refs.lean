/-
  The vnodes and their reference counts: `vfs_vnode_get_ref`, `vfs_vnode_put`, the walk, the
  descriptors and the operations on paths of `vfs.c`, and `sys_chdir`, `sys_getcwd` and
  `sys_fork`.

  A vnode is an object at an address of the heap.  What the file systems and `kmalloc` answer
  is not modelled: `Outside` holds the answers of one call by the time of the question, and
  `clock` counts the questions.  A vnode that is freed is not there any more; the functions
  that use it then do nothing.
-/
import Kabanos.Lib.Runs
import Kabanos.Vfs.Path

namespace Kabanos

/-- `S_IFMT` of a mode, as far as the functions ask for it. -/
inductive FileKind
  | dir
  | lnk
  | other
  deriving DecidableEq

structure VnodeObj where
  superBlock : ℕ
  ino : ℕ
  kind : FileKind
  refcount : ℕ
  deriving DecidableEq

/-- `file_t`; `vfs_init_stdio` leaves `refcount` as it finds it. -/
structure FileObj where
  vnode : ℕ
  refcount : ℕ
  deriving DecidableEq

/-- The vnodes, `g_fd_table`, the `fs_root` of each mount and the `cwd` of each process. -/
structure RefState where
  heap : ℕ → Option VnodeObj
  fdTable : List (Option FileObj)
  mounts : List (MountPoint ℕ)
  cwd : List (Option ℕ)
  clock : ℕ

/-- The answers of the file systems (`lookup`, `readlink`, `fstat`, `getdents`, the operations
    on a directory) and of `kmalloc`.  `opens` says that a file object is allocated and that
    `f_ops->open` takes it; `stale` is the inode number in an `fstat_t` that is not filled. -/
structure Outside where
  lookup : ℕ → ℕ → ℕ → Text → Option (ℕ × FileKind)
  readlink : ℕ → ℕ → ℕ → Option Text
  getdents : ℕ → ℕ → ℕ → List (ℕ × Text)
  fstats : ℕ → Bool
  stale : ℕ → ℕ
  op : ℕ → ℤ
  kmalloc : ℕ → Option ℕ
  strdup : ℕ → Bool
  opens : ℕ → Bool

namespace RefState
variable (out : Outside) (s : RefState)

def set (v : ℕ) (x : Option VnodeObj) : RefState := { s with heap := Function.update s.heap v x }

def tick : RefState := { s with clock := s.clock + 1 }

def vnodeGetRef (v : ℕ) : RefState :=
  match s.heap v with
  | none => s
  | some o => s.set v (some { o with refcount := (o.refcount + 1) % 2 ^ 32 })

def vnodePut (v : ℕ) : RefState :=
  match s.heap v with
  | none => s
  | some o =>
    let refcount := (o.refcount + (2 ^ 32 - 1)) % 2 ^ 32
    s.set v (if refcount = 0 then none else some { o with refcount := refcount })

/-- `v_ops->lookup`: each time a new vnode. -/
def lookup (dir : ℕ) (name : Text) : RefState × Option ℕ :=
  match s.heap dir with
  | none => (s.tick, none)
  | some d =>
    if d.kind ≠ .dir then (s.tick, none)
    else
      match out.lookup s.clock d.superBlock d.ino name, out.kmalloc s.clock with
      | some (ino, kind), some v =>
        if s.heap v = none then (s.tick.set v (some ⟨d.superBlock, ino, kind, 1⟩), some v)
        else (s.tick, none)
      | _, _ => (s.tick, none)

/-! ## The walk -/

/-- `vfs_walk`, up to its loop. -/
def walkStart (base : ℕ) (relativePath : Text) : RefState × Lookup ℕ :=
  let s := s.vnodeGetRef base
  if relativePath = [] ∨ out.strdup s.clock = true then (s.tick, vfsWalk base relativePath)
  else (s.tick.vnodePut base, .ret none)

/-- `vfs_lookup_path`, up to the loop of `vfs_walk`. -/
def pathStart (path : Text) (base : Option ℕ) : RefState × Lookup ℕ :=
  if path.head? = some '/' then
    match vfsFindMountPoint s.mounts path with
    | none => (s, .ret none)
    | some mount =>
      s.walkStart out mount.fsRoot ((path.drop mount.path.length).dropWhile (· = '/'))
  else
    match base with
    | none => (s, .ret none)
    | some base => s.walkStart out base path

/-- `vfs_walk` after it has read the link `next`. -/
def followLink (w : Walk ℕ) (target : Text) : RefState × Lookup ℕ :=
  let path := newPath target w.saveptr
  if path.head? = some '/' then (s.vnodePut w.current).pathStart out path none
  else if out.strdup s.clock = true then
    (s.tick, .walk ⟨w.current, (strtokR path).1, (strtokR path).2, w.symlinkDepth + 1⟩)
  else (s.tick.vnodePut w.current, .ret none)

/-- The loop of `vfs_walk` with the vnode `next` for the token, which is referenced. -/
def visit (followFinalSymlink : Bool) (w : Walk ℕ) (next : ℕ) : RefState × Lookup ℕ :=
  match s.heap next with
  | none => (s, .ret none)
  | some o =>
    if o.kind = .lnk then
      if w.saveptr = [] ∧ followFinalSymlink = false then
        (s.vnodePut w.current, .ret (some next))
      else if maxSymlinkDepth < w.symlinkDepth + 1 then
        ((s.vnodePut next).vnodePut w.current, .ret none)
      else
        match out.readlink s.clock o.superBlock o.ino with
        | none => ((s.tick.vnodePut next).vnodePut w.current, .ret none)
        | some target => (s.tick.vnodePut next).followLink out w target
    else
      (s.vnodePut w.current,
        .walk ⟨next, (strtokR w.saveptr).1, (strtokR w.saveptr).2, w.symlinkDepth⟩)

/-- One round of the loop of `vfs_walk`. -/
def walkRound (followFinalSymlink : Bool) (x : RefState × Lookup ℕ) :
    Option (RefState × Lookup ℕ) :=
  match x.2 with
  | .ret _ => none
  | .walk w =>
    match w.token with
    | none => some (x.1, .ret (some w.current))
    | some token =>
      match x.1.lookup out w.current token with
      | (s, none) => some (s.vnodePut w.current, .ret none)
      | (s, some next) => some ((s.vnodeGetRef next).visit out followFinalSymlink w next)

def lookupPath (n : ℕ) (path : Text) (base : Option ℕ) (followFinalSymlink : Bool) :
    Option (RefState × Option ℕ) :=
  (loop (walkRound out followFinalSymlink) n (s.pathStart out path base)).bind fun x =>
    match x.2 with
    | .ret v => some (x.1, v)
    | .walk _ => none

/-! ## Descriptors -/

/-- `vfs_bind_vnode_to_fd` with `alloc_fd`: the first free descriptor. -/
def bindVnodeToFd (v : ℕ) : RefState × Except ℤ ℕ :=
  if out.opens s.clock = true then
    match s.fdTable.findIdx? Option.isNone with
    | none => (s.tick, .error (-1))
    | some fd => ({ s.tick with fdTable := s.fdTable.set fd (some ⟨v, 1⟩) }, .ok fd)
  else (s.tick, .error (-1))

/-- `vfs_close` with `free_fd` -/
def close (fd : ℕ) : RefState :=
  match s.fdTable[fd]? with
  | some (some file) =>
    let s := { s with fdTable := s.fdTable.set fd none }
    if (file.refcount + (2 ^ 32 - 1)) % 2 ^ 32 = 0 then s.vnodePut file.vnode else s
  | _ => s

/-- `vfs_close` of what `vfs_bind_vnode_to_fd` has returned. -/
def closeResult : Except ℤ ℕ → RefState
  | .ok fd => s.close fd
  | .error _ => s

def fdVnode (fd : ℕ) : Option ℕ := (s.fdTable[fd]?.bind id).map FileObj.vnode

/-- The inode number that `vfs_fstat` leaves in its record. -/
def fstatIno (fd : Except ℤ ℕ) : ℕ :=
  match fd with
  | .error _ => out.stale s.clock
  | .ok fd =>
    match (s.fdVnode fd).bind s.heap with
    | none => out.stale s.clock
    | some o => if out.fstats s.clock = true then o.ino else out.stale s.clock

/-! ## Operations on paths -/

/-- The path of the parent, up to the last `/`. -/
def parentPath (path : Text) : Option Text :=
  if '/' ∈ path then
    let parent := ((path.reverse.dropWhile (· ≠ '/')).drop 1).reverse
    some (if parent = [] then ['/'] else parent)
  else none

/-- `get_vops` finds the operations. -/
def hasVops (path : Text) (base : Option ℕ) : Bool :=
  base.isSome || (vfsFindMountPoint s.mounts path).isSome

/-- `vfs_parent_operation`, behind `get_vops` -/
def parentOperation (n : ℕ) (path : Text) (base : Option ℕ) : Option (RefState × ℤ) :=
  if s.hasVops path base = false then some (s, -1)
  else if out.strdup s.clock = false then some (s.tick, -1)
  else
    match parentPath path with
    | none => some (s.tick.tick, out.op s.tick.clock)
    | some parent =>
      (s.tick.lookupPath out n parent base true).map fun (s, v) =>
        match v with
        | none => (s, -2)
        | some v => (s.tick.vnodePut v, out.op s.clock)

/-- `vfs_create`, `vfs_mkdir` and `vfs_unlink` differ in the operation of the file system. -/
abbrev create (n : ℕ) (path : Text) (base : Option ℕ) := s.parentOperation out n path base
abbrev mkdir (n : ℕ) (path : Text) (base : Option ℕ) := s.parentOperation out n path base
abbrev unlink (n : ℕ) (path : Text) (base : Option ℕ) := s.parentOperation out n path base

/-- `vfs_rename`; a copy of a path that is not allocated is a null pointer. -/
def rename (n : ℕ) (oldpath newpath : Text) (base : Option ℕ) : Option (RefState × ℤ) :=
  match parentPath oldpath, parentPath newpath with
  | some oldParent, some newParent =>
    (s.lookupPath out n oldParent base true).bind fun (s, v) =>
      (s.lookupPath out n newParent base true).map fun (s, w) =>
        match v, w with
        | some v, some w =>
          let result :=
            if (s.heap v).map VnodeObj.superBlock = (s.heap w).map VnodeObj.superBlock then
              out.op s.clock
            else -1
          ((s.tick.vnodePut v).vnodePut w, result)
        | some v, none => (s.vnodePut v, -1)
        | none, some w => (s.vnodePut w, -1)
        | none, none => (s, -1)
  | _, _ => some (s, -1)

/-- The flags of `vfs_open` that it looks at. -/
structure OpenFlags where
  creat : Bool
  excl : Bool

def openPath (n : ℕ) (path : Text) (base : Option ℕ) (flags : OpenFlags) :
    Option (RefState × Except ℤ ℕ) :=
  (s.lookupPath out n path base true).bind fun (s, v) =>
    match v with
    | some v =>
      if flags.creat && flags.excl then some (s, .error (-17)) else some (s.bindVnodeToFd out v)
    | none =>
      if flags.creat = false then some (s, .error (-2))
      else
        (s.create out n path base).bind fun (s, res) =>
          if res ≠ 0 then some (s, .error res)
          else
            (s.lookupPath out n path base true).map fun (s, v) =>
              match v with
              | none => (s, .error (-5))
              | some v => s.bindVnodeToFd out v

/-! ## System calls -/

/-- The working directory of a process. -/
def cwdOf (pid : ℕ) : Option ℕ := s.cwd[pid]?.bind id

def chdir (n pid : ℕ) (path : Text) : Option (RefState × ℤ) :=
  (s.lookupPath out n path (s.cwdOf pid) true).map fun (s, v) =>
    match v with
    | none => (s, -2)
    | some v =>
      if (s.heap v).any (·.kind = .dir) then
        let s' := { s with cwd := s.cwd.set pid (some v) }
        ((s.cwdOf pid).elim s' s'.vnodePut, 0)
      else (s.vnodePut v, -20)

/-- `sys_fork` with `process_create`: the child is the last process. -/
def fork (n pid : ℕ) : Option (RefState × ℤ) :=
  (s.lookupPath out n ['/'] none true).map fun (s, _) =>
    let cwd := s.cwdOf pid
    let child := s.cwd.length
    let s := { s with cwd := s.cwd ++ [cwd] }
    (cwd.elim s s.vnodeGetRef, child)

def maxPath : ℕ := 2046

def dotdotPath : Text := ['.', '.']

/-- The name of an inode among the entries of an open directory. -/
def entryName (fd ino : ℕ) : Option Text :=
  (((s.fdVnode fd).bind s.heap).bind fun o =>
    (out.getdents s.clock o.superBlock o.ino).find? (·.1 = ino)).map Prod.snd

/-- How a round of `sys_getcwd` ends: with a result, or at the parent with a longer path. -/
inductive Climb
  | done (r : Except ℤ Text)
  | up (parent : ℕ) (path : Text)

/-- One round of the loop of `sys_getcwd`; `path` is the part of `path_stack` that is
    written. -/
def getcwdRound (n curr : ℕ) (path : Text) : Option (RefState × Climb) :=
  let bound := s.bindVnodeToFd out curr
  let currFd := bound.2
  let currIno := bound.1.fstatIno out currFd
  (bound.1.tick.openPath out n dotdotPath (some curr) ⟨false, false⟩).bind fun (s, parentFd) =>
    match parentFd with
    | .error code => some ((s.closeResult currFd).vnodePut curr, .done (.error code))
    | .ok fd =>
      if currIno = s.fstatIno out (.ok fd) then
        some (((s.closeResult currFd).close fd).vnodePut curr, .done (.ok path))
      else
        match s.entryName out fd currIno with
        | none =>
          (s.fdVnode fd).map fun parent =>
            (((((s.vnodeGetRef parent).close fd).closeResult currFd).vnodePut parent),
              .done (.error (-2)))
        | some name =>
          if maxPath - 1 < path.length + name.length + 1 then
            some (((s.closeResult currFd).close fd).vnodePut curr, .done (.error (-91)))
          else
            (s.fdVnode fd).map fun parent =>
              (((s.vnodeGetRef parent).close fd).closeResult currFd,
                .up parent ('/' :: name ++ path))

def getcwdLoop : ℕ → RefState → ℕ → Text → Option (RefState × Except ℤ Text)
  | 0, _, _, _ => none
  | n + 1, s, curr, path =>
    (s.getcwdRound out n curr path).bind fun (s, r) =>
      match r with
      | .done r => some (s, r)
      | .up parent path => getcwdLoop n s parent path

/-- `sys_getcwd`; without a working directory a null pointer is used. -/
def getcwd (n pid size : ℕ) : Option (RefState × Except ℤ Text) :=
  (s.cwdOf pid).bind fun curr =>
    (getcwdLoop out n (s.vnodeGetRef curr) curr []).map fun (s, r) =>
      (s, r.bind fun path =>
        let path := if path = [] then ['/'] else path
        if size < path.length + 1 then .error (-34) else .ok path)

end RefState

end Kabanos
