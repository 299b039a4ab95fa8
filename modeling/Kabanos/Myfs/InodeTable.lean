/-
  The inode table as an array of records, for blocks of any size.

  A record does not divide a block, so `disk_rw_spanning` may take it from two blocks or more; what
  it writes is the record, at the place where it is read.  On top of that, `myfs_disk_inode_write`
  and `myfs_iput` leave on the disk what `myfs_disk_inode_read` then finds.
-/
import Kabanos.Myfs.Inode
import Kabanos.Myfs.Spans

namespace Kabanos

/-! ## The encoding of a record -/

/-- Every field but the reference count fits its place in the record. -/
structure MyfsInode.Bounded (n : MyfsInode) : Prop where
  iIno : n.iIno < 2 ^ 32
  blockPtrs : ∀ k, n.blockPtrs k < 2 ^ 32
  single : n.singleIndirectPtr < 2 ^ 32
  double : n.doubleIndirectPtr < 2 ^ 32
  blockCount : n.blockCount < 2 ^ 32
  size : n.size < 2 ^ 32
  mode : n.mode < 2 ^ 32
  linksCount : n.linksCount < 2 ^ 32
  uid : n.uid < 2 ^ 32
  gid : n.gid < 2 ^ 32
  permissions : n.permissions < 2 ^ 32
  atime : n.atime < 2 ^ 64
  mtime : n.mtime < 2 ^ 64
  ctime : n.ctime < 2 ^ 64
  dirty : n.dirty < 2 ^ 32

theorem MyfsInode.Bounded.withRefs {n : MyfsInode} (h : n.Bounded) (refCount : ℕ) :
    (n.withRefs refCount).Bounded :=
  ⟨h.iIno, h.blockPtrs, h.single, h.double, h.blockCount, h.size, h.mode, h.linksCount, h.uid,
    h.gid, h.permissions, h.atime, h.mtime, h.ctime, h.dirty⟩

theorem decode_congr {b b' : Buf} (h : ∀ j < inodeSize, b' j = b j) :
    MyfsInode.decode b' = MyfsInode.decode b := by
  have e : ∀ w < 28, getU32 b' (4 * w) = getU32 b (4 * w) := fun w hw =>
    getU32_congr fun j h1 h2 => h j (by simp only [inodeSize]; omega)
  have ep : (fun k : Fin 10 => getU32 b' (4 * (k.val + 1))) =
      fun k : Fin 10 => getU32 b (4 * (k.val + 1)) := funext fun k => e _ (by omega)
  unfold MyfsInode.decode
  rw [ep]
  simp only [e _ (show 0 < 28 by norm_num), e _ (show 11 < 28 by norm_num),
    e _ (show 12 < 28 by norm_num), e _ (show 13 < 28 by norm_num),
    e _ (show 14 < 28 by norm_num), e _ (show 15 < 28 by norm_num),
    e _ (show 16 < 28 by norm_num), e _ (show 17 < 28 by norm_num),
    e _ (show 18 < 28 by norm_num), e _ (show 19 < 28 by norm_num),
    e _ (show 20 < 28 by norm_num), e _ (show 21 < 28 by norm_num),
    e _ (show 22 < 28 by norm_num), e _ (show 23 < 28 by norm_num),
    e _ (show 24 < 28 by norm_num), e _ (show 25 < 28 by norm_num),
    e _ (show 26 < 28 by norm_num), e _ (show 27 < 28 by norm_num)]

/-- **A record is read back as it was written.** -/
theorem decode_encode {n : MyfsInode} (h : n.Bounded) :
    MyfsInode.decode n.encode = n.withRefs (n.refCount % 2 ^ 32) := by
  have hp : (fun k : Fin 10 => getU32 n.encode (4 * (k.val + 1))) = n.blockPtrs := by
    funext k
    rw [MyfsInode.encode, getU32_wordsBuf]
    have e : n.words (k.val + 1) = n.blockPtrs k := by fin_cases k <;> rfl
    rw [e, Nat.mod_eq_of_lt (h.blockPtrs k)]
  have h64 : ∀ t : ℕ, t < 2 ^ 64 → t % 2 ^ 32 + 2 ^ 32 * (t / 2 ^ 32 % 2 ^ 32) = t := by
    intro t ht
    omega
  unfold MyfsInode.decode
  rw [hp]
  simp only [MyfsInode.encode, getU32_wordsBuf, MyfsInode.words, Nat.mod_eq_of_lt h.iIno,
    Nat.mod_eq_of_lt h.single, Nat.mod_eq_of_lt h.double, Nat.mod_eq_of_lt h.blockCount,
    Nat.mod_eq_of_lt h.size, Nat.mod_eq_of_lt h.mode, Nat.mod_eq_of_lt h.linksCount,
    Nat.mod_eq_of_lt h.uid, Nat.mod_eq_of_lt h.gid, Nat.mod_eq_of_lt h.permissions,
    Nat.mod_eq_of_lt h.dirty, h64 _ h.atime, h64 _ h.mtime, h64 _ h.ctime]
  rfl

/-! ## The place of a record -/

/-- The address of the record of inode `i`. -/
def recAddr (sb : MyfsSuperBlock) (i : ℕ) : ℕ :=
  sb.onDisk.inodeTableStart * sb.blockBytes + i * inodeSize

/-- The first block behind the record of inode `i`. -/
def recordEnd (sb : MyfsSuperBlock) (i : ℕ) : ℕ :=
  sb.onDisk.inodeTableStart + ((i + 1) * inodeSize + sb.blockBytes - 1) / sb.blockBytes

/-- The record of inode `i` lies on the device, and its number is one that an `int` can hold. -/
structure RecordOnDev (sb : MyfsSuperBlock) (i : ℕ) : Prop where
  int : i < 2 ^ 31
  onDev : recordEnd sb i * sb.onDisk.blockSectors ≤ sb.dev.sectors

/-- The bytes of the record that `myfs_disk_inode_read` reads for inode `i`, into `buf`. -/
def readRecord (sb : MyfsSuperBlock) (i : ℕ) (buf : Buf) : Buf :=
  (diskRwSpanning sb (inodePos sb i).1 (inodePos sb i).2 buf inodeSize false).2

/-- The write of `myfs_disk_inode_write` for inode `i`. -/
def writeRecord (sb : MyfsSuperBlock) (i : ℕ) (data : Buf) : MyfsSuperBlock :=
  (diskRwSpanning sb (inodePos sb i).1 (inodePos sb i).2 data inodeSize true).1

section
variable {sb : MyfsSuperBlock} {i j b : ℕ}

theorem RecordOnDev.setData (h : RecordOnDev sb i) (d : Buf) : RecordOnDev (sb.setData d) i :=
  ⟨h.int, h.onDev⟩

theorem recAddr_le_recordEnd (hpos : 0 < sb.blockBytes) (i : ℕ) :
    recAddr sb i + inodeSize ≤ recordEnd sb i * sb.blockBytes := by
  have h : (i + 1) * inodeSize + sb.blockBytes - 1 < _ := Nat.lt_div_mul_add hpos
  rw [recAddr, recordEnd, Nat.add_mul]
  rw [Nat.add_mul] at h ⊢
  omega

/-- The bytes of a record that is written. -/
theorem memcpy_record (sb : MyfsSuperBlock) (data : Buf) {k : ℕ} (hk : k < inodeSize) :
    memcpy sb.dev.data (recAddr sb i) data 0 inodeSize (recAddr sb i + k) = data k := by
  rw [memcpy_in (Nat.le_add_right ..) (Nat.add_lt_add_left hk _)]
  congr 1
  omega

/-- The bytes of another record. -/
theorem memcpy_record_ne (sb : MyfsSuperBlock) (data : Buf) {k : ℕ} (hne : j ≠ i)
    (hk : k < inodeSize) : memcpy sb.dev.data (recAddr sb i) data 0 inodeSize (recAddr sb j + k) =
      sb.dev.data (recAddr sb j + k) := by
  refine memcpy_out ?_
  simp only [recAddr, inodeSize] at *
  omega

/-- A block behind the start of the table and before the end of the record. -/
theorem block_of_record {a : ℕ} (hpos : 0 < sb.blockBytes) (h : recAddr sb i ≤ a)
    (h' : a < recAddr sb i + inodeSize) (hb : b * sb.blockBytes ≤ a)
    (hb' : a < b * sb.blockBytes + sb.blockBytes) :
    sb.onDisk.inodeTableStart ≤ b ∧ b < recordEnd sb i := by
  have hend := recAddr_le_recordEnd hpos i
  refine ⟨?_, Nat.lt_of_mul_lt_mul_right (hb.trans_lt (h'.trans_le hend))⟩
  have hlt : sb.onDisk.inodeTableStart * sb.blockBytes < (b + 1) * sb.blockBytes := by
    rw [Nat.succ_mul]
    simp only [recAddr] at h
    omega
  exact Nat.lt_succ_iff.1 (Nat.lt_of_mul_lt_mul_right hlt)

section
variable (g : WholeSectors sb) (hi : RecordOnDev sb i)
include g hi

theorem RecordOnDev.block (hb : b * sb.blockBytes < recAddr sb i + inodeSize) : OnDev sb b := by
  have hlt : b < recordEnd sb i :=
    Nat.lt_of_mul_lt_mul_right (hb.trans_le (recAddr_le_recordEnd g.pos i))
  exact (Nat.mul_le_mul_right _ hlt).trans hi.onDev

theorem RecordOnDev.pos : (inodePos sb i).2 < sb.blockBytes ∧
    (inodePos sb i).1 * sb.blockBytes + (inodePos sb i).2 = recAddr sb i := by
  have hint := hi.int
  have hoff : ((i : ℤ) * inodeSize % 2 ^ 64).toNat = i * inodeSize := by
    have hlt : (i : ℤ) * inodeSize < 2 ^ 64 := by
      simp only [inodeSize]
      omega
    rw [Int.emod_eq_of_lt (by positivity) hlt, ← Nat.cast_mul, Int.toNat_natCast]
  have hmod := Nat.div_add_mod' (i * inodeSize) sb.blockBytes
  -- the block number does not wrap around, since the block lies on the device
  have hb : OnDev sb (sb.onDisk.inodeTableStart + i * inodeSize / sb.blockBytes) := by
    refine hi.block g ?_
    simp only [recAddr, Nat.add_mul, inodeSize] at hmod ⊢
    omega
  have h32 : sb.onDisk.inodeTableStart + i * inodeSize / sb.blockBytes < 2 ^ 32 := by
    have h1 := hb.range
    have h2 := g.dev32
    have hsec : 0 < sb.onDisk.blockSectors := by
      have := g.bytes
      have := g.pos
      omega
    have h3 := Nat.le_mul_of_pos_right
      (sb.onDisk.inodeTableStart + i * inodeSize / sb.blockBytes) hsec
    omega
  simp only [inodePos, hoff, Nat.mod_eq_of_lt h32, recAddr, Nat.add_mul]
  exact ⟨Nat.mod_lt _ g.pos, by omega⟩

theorem readRecord_eq (buf : Buf) {k : ℕ} (hk : k < inodeSize) :
    readRecord sb i buf k = sb.dev.data (recAddr sb i + k) := by
  obtain ⟨h1, h2⟩ := hi.pos g
  rw [readRecord, diskRwSpanning,
    rwSpanningLoop_read g inodeSize le_rfl h1 fun b hb => hi.block g (h2 ▸ hb), h2]
  show memcpy buf 0 sb.dev.data (recAddr sb i) inodeSize k = _
  rw [memcpy_in (Nat.zero_le k) (by omega), Nat.sub_zero]

theorem writeRecord_eq (data : Buf) : writeRecord sb i data =
    sb.setData (memcpy sb.dev.data (recAddr sb i) data 0 inodeSize) := by
  obtain ⟨h1, h2⟩ := hi.pos g
  rw [writeRecord, diskRwSpanning,
    rwSpanningLoop_write g inodeSize le_rfl h1 fun b hb => hi.block g (h2 ▸ hb), h2]

end

/-- **The inode table is an array of records**: a record that was written is read back, the others
    are as before, and so are all blocks but those from the start of the table to the end of the
    record. -/
theorem inode_table_get_set (g : WholeSectors sb) (hi : RecordOnDev sb i) (data buf : Buf) :
    (∀ k < inodeSize, readRecord (writeRecord sb i data) i buf k = data k) ∧
      (∀ j ≠ i, RecordOnDev sb j → ∀ k < inodeSize,
        readRecord (writeRecord sb i data) j buf k = readRecord sb j buf k) ∧
      ∀ b, ¬ (sb.onDisk.inodeTableStart ≤ b ∧ b < recordEnd sb i) → ∀ o < sb.blockBytes,
        (writeRecord sb i data).dev.data (b * sb.blockBytes + o) =
          sb.dev.data (b * sb.blockBytes + o) := by
  rw [writeRecord_eq g hi data]
  refine ⟨fun k hk => ?_, fun j hj hdev k hk => ?_, fun b hb o ho => ?_⟩
  · rw [readRecord_eq (g.setData _) (hi.setData _) buf hk]
    exact memcpy_record sb data hk
  · rw [readRecord_eq (g.setData _) (hdev.setData _) buf hk, readRecord_eq g hdev buf hk]
    exact memcpy_record_ne sb data hj hk
  · refine memcpy_out ?_
    by_contra hin
    exact hb (block_of_record (a := b * sb.blockBytes + o) g.pos (by omega) (by omega)
      (Nat.le_add_right ..) (by omega))

end

/-- The fifth record straddles the first two blocks of the table. -/
theorem inode_table_get_set_straddle :
    RecordOnDev (sectorFs 8 8 0) 4 ∧ (inodePos (sectorFs 8 8 0) 4).2 + inodeSize > 512 ∧
      ∀ k < inodeSize,
        readRecord (writeRecord (sectorFs 8 8 0) 4 fun _ => 7) 4 (fun _ => 0) k = 7 := by
  have hi : RecordOnDev (sectorFs 8 8 0) 4 :=
    ⟨by norm_num, by simp [recordEnd, sectorFs, inodeSize]⟩
  exact ⟨hi, by decide, (inode_table_get_set (sectorFs_whole (by norm_num) ..) hi
    (fun _ => 7) fun _ => 0).1⟩

/-- A record behind the end of the device is lost, and no error is returned. -/
theorem inode_table_lost : WholeSectors (sectorFs 8 8 0) ∧
    readRecord (writeRecord (sectorFs 8 8 0) 40 fun _ => 7) 40 (fun _ => 0) 0 ≠ 7 :=
  ⟨sectorFs_whole (by norm_num) .., by decide +kernel⟩

/-! ## The inodes of the table -/

/-- The record of inode `i` on disk. -/
def diskInode (sb : MyfsSuperBlock) (i : ℕ) : MyfsInode :=
  MyfsInode.decode fun k => sb.dev.data (recAddr sb i + k)

section
variable {sb : MyfsSuperBlock} {i : ℕ} {n : MyfsInode} {p : Ptr}

/-- The inode objects and the cache do not matter for what is on disk. -/
theorem diskInode_objects (sb : MyfsSuperBlock) (h : Ptr → MyfsInode) (t : ℕ → List Ptr) (i : ℕ) :
    diskInode { sb with heap := h, inodeHashTable := t } i = diskInode sb i := rfl

section
variable (g : WholeSectors sb) (hi : RecordOnDev sb i)
include g hi

theorem diskInode_writeRecord (hn : n.Bounded) :
    diskInode (writeRecord sb i n.encode) i = n.withRefs (n.refCount % 2 ^ 32) := by
  rw [writeRecord_eq g hi, ← decode_encode hn]
  exact decode_congr fun k hk => memcpy_record sb n.encode hk

theorem diskInode_writeRecord_ne (data : Buf) {j : ℕ} (hj : j ≠ i) :
    diskInode (writeRecord sb i data) j = diskInode sb j := by
  rw [writeRecord_eq g hi]
  exact decode_congr fun k hk => memcpy_record_ne sb data hj hk

/-- **`myfs_disk_inode_read`** makes an object of the record. -/
theorem myfsDiskInodeRead_spec (hmem : sb.mem 0 = true) :
    (myfsDiskInodeRead sb i).2 = some sb.brk ∧ (myfsDiskInodeRead sb i).1.dev = sb.dev ∧
      (myfsDiskInodeRead sb i).1.heap sb.brk = diskInode sb i := by
  set s : MyfsSuperBlock := { sb with mem := fun k => sb.mem (k + 1) } with hs
  have hk : kmalloc sb inodeSize = (s, true) := by
    rw [← hmem]
    rfl
  have e : myfsDiskInodeRead sb i =
      ({ s.setInode s.brk (MyfsInode.decode (readRecord s i s.uninit)) with
          brk := s.brk + 1 }, some s.brk) := by
    simp only [myfsDiskInodeRead, hk, readRecord]
  have gs : WholeSectors s := ⟨g.bytes, g.pos, g.dev32⟩
  have his : RecordOnDev s i := ⟨hi.int, hi.onDev⟩
  rw [e]
  refine ⟨rfl, rfl, ?_⟩
  exact (Function.update_self ..).trans (decode_congr fun k hk => readRecord_eq gs his _ hk)

end

theorem myfsIget_cached (hbit : bitmapIsSet sb.inodeBitmap i = true)
    (hp : myfsCacheFind sb i = some p) : myfsIget sb i =
      (sb.setInode p ((sb.heap p).withRefs (((sb.heap p).refCount + 1) % 2 ^ 32)), some p) := by
  simp only [myfsIget, hbit, hp, Bool.not_true, Bool.false_eq_true, if_false]

theorem iIno_of_cached (hp : myfsCacheFind sb i = some p) : (sb.heap p).iIno = i := by
  simpa using List.find?_some hp

theorem myfsCacheFind_withRefs (sb : MyfsSuperBlock) (p : Ptr) (refCount i : ℕ) :
    myfsCacheFind (sb.setInode p ((sb.heap p).withRefs refCount)) i = myfsCacheFind sb i := by
  have e : ∀ q, ((sb.setInode p ((sb.heap p).withRefs refCount)).heap q).iIno =
      (sb.heap q).iIno := by
    intro q
    simp only [MyfsSuperBlock.setInode, Function.update_apply]
    split_ifs with hq
    · rw [hq]
      rfl
    · rfl
  simp only [myfsCacheFind, e]
  rfl

/-- A store to an inode and `myfs_iput` without a write-back change objects and cache only. -/
theorem iputWith_clean (sb : MyfsSuperBlock) (p : Ptr) (n : MyfsInode) :
    ∃ h t, iputWith (fun sb _ => sb) (sb.setInode p n) p =
      { sb with heap := h, inodeHashTable := t } := by
  simp only [iputWith, ite_self]
  split_ifs <;> exact ⟨_, _, rfl⟩

section
variable (g : WholeSectors sb) (hi : RecordOnDev sb i)
  (hbit : bitmapIsSet sb.inodeBitmap i = true) (hp : myfsCacheFind sb i = some p)
  (hn : (sb.heap p).Bounded) (hd : (sb.heap p).dirty ≠ 0)
include g hi hbit hp hn hd

/-- **`myfs_disk_inode_write`** of a dirty inode in the cache: its record is the inode, with the
    reference that the function takes, and the other records are as before. -/
theorem myfsDiskInodeWrite_cached :
    (myfsDiskInodeWrite sb i).2 = 0 ∧
      diskInode (myfsDiskInodeWrite sb i).1 i =
        (sb.heap p).withRefs (((sb.heap p).refCount + 1) % 2 ^ 32) ∧
      ∀ j ≠ i, diskInode (myfsDiskInodeWrite sb i).1 j = diskInode sb j := by
  generalize hr : ((sb.heap p).refCount + 1) % 2 ^ 32 = r
  set s := sb.setInode p ((sb.heap p).withRefs r) with hs
  have hheap : s.heap p = (sb.heap p).withRefs r := Function.update_self ..
  have hino : ((sb.heap p).withRefs r).iIno = i := iIno_of_cached hp
  have gs : WholeSectors s := ⟨g.bytes, g.pos, g.dev32⟩
  have his : RecordOnDev s i := ⟨hi.int, hi.onDev⟩
  obtain ⟨h, t, e⟩ : ∃ h t, myfsDiskInodeWrite sb i =
      ({ writeRecord s i ((sb.heap p).withRefs r).encode with
          heap := h, inodeHashTable := t }, 0) := by
    have hdirty : ((sb.heap p).withRefs r).dirty ≠ 0 := hd
    simp only [myfsDiskInodeWrite, myfsIget_cached hbit hp, hr, ← hs, hheap, if_neg hdirty, hino]
    obtain ⟨h, t, e⟩ := iputWith_clean (writeRecord s i ((sb.heap p).withRefs r).encode) p
      { (writeRecord s i ((sb.heap p).withRefs r).encode).heap p with dirty := 0 }
    exact ⟨h, t, congrArg (Prod.mk · 0) e⟩
  rw [e]
  refine ⟨rfl, ?_, fun j hj => ?_⟩
  · rw [diskInode_objects, diskInode_writeRecord gs his (hn.withRefs r), ← hr]
    exact congrArg (sb.heap p).withRefs (Nat.mod_mod ..)
  · rw [diskInode_objects, diskInode_writeRecord_ne gs his _ hj]
    rfl

/-- **The last `myfs_iput` of a dirty inode writes it back.** -/
theorem myfsIput_last (hone : (sb.heap p).refCount = 1) :
    diskInode (myfsIput sb p) i = sb.heap p ∧
      ∀ j ≠ i, diskInode (myfsIput sb p) j = diskInode sb j := by
  set s := sb.setInode p ((sb.heap p).withRefs 0) with hs
  have hheap : s.heap p = (sb.heap p).withRefs 0 := Function.update_self ..
  have hino : ((sb.heap p).withRefs 0).iIno = i := iIno_of_cached hp
  have hdirty : ((sb.heap p).withRefs 0).dirty ≠ 0 := hd
  obtain ⟨-, hw, hother⟩ := @myfsDiskInodeWrite_cached s i p ⟨g.bytes, g.pos, g.dev32⟩
    ⟨hi.int, hi.onDev⟩ hbit ((myfsCacheFind_withRefs sb p 0 i).trans hp)
    (hheap ▸ hn.withRefs 0) (hheap ▸ hdirty)
  obtain ⟨t, e⟩ : ∃ t, myfsIput sb p =
      { (myfsDiskInodeWrite s i).1 with inodeHashTable := t } := by
    have h0 : (1 + (2 ^ 32 - 1)) % 2 ^ 32 = 0 := by norm_num
    simp only [myfsIput, iputWith, hone, h0, ← hs, hheap, if_true, if_pos hdirty, hino]
    exact ⟨_, rfl⟩
  rw [e]
  refine ⟨hw.trans ?_, fun j hj => (hother j hj).trans rfl⟩
  rw [hheap]
  have hrefs : (0 + 1) % 2 ^ 32 = (sb.heap p).refCount := hone.symm
  exact congrArg (sb.heap p).withRefs hrefs

end

end

end Kabanos
