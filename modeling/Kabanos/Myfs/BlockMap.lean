/-
  The block map of an inode as an array: `myfs_map_block_to_inode` writes an index,
  `myfs_block_lba_get` reads it, for blocks of any size.

  Where a table is missing on the way, `myfs_map_block_to_inode` makes one in a free block.
  `Tabled` is what such steps do to the file system and the inode, and the store of the block number
  comes after them.
-/
import Kabanos.Myfs.Slots

namespace Kabanos

/-- Blocks are whole sectors, on a device whose sectors have 32-bit numbers, and the pointers behind
    a double-indirect one have a 32-bit number. -/
structure Blocks (sb : MyfsSuperBlock) : Prop where
  bytes : sb.blockBytes = sb.onDisk.blockSectors * 512
  dev32 : sb.dev.sectors ≤ 2 ^ 32
  ptrs32 : ptrsPerBlock sb * ptrsPerBlock sb < 2 ^ 32

/-- The number of blocks the block bitmap has bits for. -/
def bitmapBlocks (sb : MyfsSuperBlock) : ℕ := 8 * ((sb.onDisk.totalBlocks + 7) / 8)

/-- The tables of an inode are marked used. -/
def TablesMarked (sb : MyfsSuperBlock) (n : MyfsInode) : Prop :=
  ∀ a, ¬ a.IsLeaf → slot sb n a ≠ 0 →
    slot sb n a < bitmapBlocks sb ∧ bitmapIsSet sb.blockBitmap (slot sb n a) = true

/-- The blocks that `myfs_bitmap_alloc` can still take lie on the device. -/
def FreeOnDev (sb : MyfsSuperBlock) : Prop :=
  ∀ b, sb.onDisk.dataBlocksStart ≤ b → b < bitmapBlocks sb →
    bitmapIsSet sb.blockBitmap b = false → OnDev sb b

/-- Byte `x` of the device lies in block `b`. -/
def InBlock (sb : MyfsSuperBlock) (b x : ℕ) : Prop :=
  b * sb.blockBytes ≤ x ∧ x < b * sb.blockBytes + sb.blockBytes

/-- Block `t` is an indirect table of the inode. -/
def HoldsTable (sb : MyfsSuperBlock) (n : MyfsInode) (t : ℕ) : Prop :=
  t ≠ 0 ∧ ∃ a, ¬ a.IsLeaf ∧ slot sb n a = t

/-- An inode whose tables are in place, in a file system with room for new ones. -/
structure Laid (sb : MyfsSuperBlock) (n : MyfsInode) : Prop where
  whole : WholeSectors sb
  ptrs32 : ptrsPerBlock sb * ptrsPerBlock sb < 2 ^ 32
  bits32 : bitmapBlocks sb ≤ 2 ^ 32
  placed : Placed sb n
  marked : TablesMarked sb n
  free : FreeOnDev sb

section
variable {sb sb' sb'' : MyfsSuperBlock} {n n' n'' : MyfsInode} {s : Slot} {b t v x : ℕ}

theorem SameGeom.bitmapBlocks (e : SameGeom sb sb') :
    Kabanos.bitmapBlocks sb' = Kabanos.bitmapBlocks sb := by
  simp only [Kabanos.bitmapBlocks, e.onDisk]

theorem FreeOnDev.congr (h : FreeOnDev sb) (e : SameGeom sb sb')
    (hused : ∀ c, bitmapIsSet sb.blockBitmap c = true → bitmapIsSet sb'.blockBitmap c = true) :
    FreeOnDev sb' := by
  intro b h1 h2 h3
  rw [e.onDisk] at h1
  rw [e.bitmapBlocks] at h2
  refine e.onDev.2 (h b h1 h2 (Bool.eq_false_iff.2 fun hc => ?_))
  rw [hused b hc] at h3
  cases h3

theorem TablesMarked.ne_of_clear (h : TablesMarked sb n)
    (hb : bitmapIsSet sb.blockBitmap b = false) (h0 : b ≠ 0) {a : Slot} (ha : ¬ a.IsLeaf) :
    slot sb n a ≠ b := by
  rintro rfl
  rw [(h a ha h0).2] at hb
  cases hb

/-- The slots are the same, and no block has become free. -/
theorem Laid.congr (h : Laid sb n) (e : SameGeom sb sb') (hslot : ∀ a, slot sb' n a = slot sb n a)
    (hused : ∀ c, bitmapIsSet sb.blockBitmap c = true → bitmapIsSet sb'.blockBitmap c = true) :
    Laid sb' n where
  whole := e.whole h.whole
  ptrs32 := e.ptrs ▸ h.ptrs32
  bits32 := e.bitmapBlocks ▸ h.bits32
  placed := by
    refine ⟨fun a ha h0 => ?_, fun a c ha hc => ?_⟩
    · rw [hslot] at h0 ⊢
      exact e.onDev.2 (h.placed.dev a ha h0)
    · rw [hslot, hslot]
      exact h.placed.apart a c ha hc
  marked a ha h0 := by
    rw [hslot] at h0 ⊢
    rw [e.bitmapBlocks]
    exact ⟨(h.marked a ha h0).1, hused _ (h.marked a ha h0).2⟩
  free := h.free.congr e hused

/-- One slot has got a block that was no table. -/
theorem Laid.insert (h : Laid sb n) (e : SameGeom sb sb') (hb : b < bitmapBlocks sb)
    (hdev : OnDev sb b) (hfree : ∀ a, ¬ a.IsLeaf → slot sb n a ≠ b)
    (hslot : ∀ a, slot sb' n' a = if a = s then b else slot sb n a)
    (hused : ∀ c, c = b ∨ bitmapIsSet sb.blockBitmap c = true →
      bitmapIsSet sb'.blockBitmap c = true) : Laid sb' n' where
  whole := e.whole h.whole
  ptrs32 := e.ptrs ▸ h.ptrs32
  bits32 := e.bitmapBlocks ▸ h.bits32
  placed := by
    refine ⟨fun a ha h0 => ?_, fun a c ha hc => ?_⟩
    · rw [hslot] at h0 ⊢
      split_ifs at h0 ⊢
      · exact e.onDev.2 hdev
      · exact e.onDev.2 (h.placed.dev a ha h0)
    · rw [hslot, hslot]
      split_ifs with e1 e2
      · exact fun _ _ => e2.trans e1.symm
      · exact fun _ he => absurd he (hfree c hc)
      · exact fun _ he => absurd he.symm (hfree a ha)
      · exact h.placed.apart a c ha hc
  marked a ha h0 := by
    rw [hslot] at h0 ⊢
    rw [e.bitmapBlocks]
    split_ifs at h0 ⊢
    · exact ⟨hb, hused b (.inl rfl)⟩
    · exact ⟨(h.marked a ha h0).1, hused _ (.inr (h.marked a ha h0).2)⟩
  free := h.free.congr e fun c hc => hused c (.inr hc)

/-! ## Making tables -/

/-- The second state has new tables at most: a slot is as it was, or it was empty and has a block
    that was free, and the device changed in tables only. -/
structure Tabled (sb : MyfsSuperBlock) (n : MyfsInode) (sb' : MyfsSuperBlock) (n' : MyfsInode) :
    Prop where
  geom : SameGeom sb sb'
  laid : Laid sb' n'
  slots : ∀ a, slot sb' n' a = slot sb n a ∨
    ¬ a.IsLeaf ∧ slot sb n a = 0 ∧ bitmapIsSet sb.blockBitmap (slot sb' n' a) = false
  used : ∀ b, bitmapIsSet sb.blockBitmap b = true → bitmapIsSet sb'.blockBitmap b = true
  frame : ∀ x, sb'.dev.data x ≠ sb.dev.data x → ∃ t, InBlock sb t x ∧ HoldsTable sb' n' t

namespace Tabled

theorem refl (h : Laid sb n) : Tabled sb n sb n where
  geom := .refl sb
  laid := h
  slots _ := .inl rfl
  used _ := id
  frame _ hx := absurd rfl hx

section
variable (h : Tabled sb n sb' n')
include h

theorem clear (hb : bitmapIsSet sb'.blockBitmap b = false) :
    bitmapIsSet sb.blockBitmap b = false := by
  refine Bool.eq_false_iff.2 fun hc => ?_
  rw [h.used b hc] at hb
  cases hb

theorem holdsTable (ht : HoldsTable sb n t) : HoldsTable sb' n' t := by
  obtain ⟨h0, a, ha, rfl⟩ := ht
  rcases h.slots a with e | ⟨-, hz, -⟩
  · exact ⟨h0, a, ha, e⟩
  · exact absurd hz h0

theorem holdsTable_old (ht : HoldsTable sb' n' t) :
    HoldsTable sb n t ∨ bitmapIsSet sb.blockBitmap t = false := by
  obtain ⟨h0, a, ha, rfl⟩ := ht
  rcases h.slots a with e | ⟨-, -, hc⟩
  · exact .inl ⟨h0, a, ha, e.symm⟩
  · exact .inr hc

theorem inBlock (hx : InBlock sb' t x) : InBlock sb t x := by
  simpa only [InBlock, h.geom.blockBytes] using hx

theorem trans (h' : Tabled sb' n' sb'' n'') : Tabled sb n sb'' n'' where
  geom := h.geom.trans h'.geom
  laid := h'.laid
  slots a := by
    rcases h'.slots a with e' | ⟨ha, hz, hc⟩
    · rw [e']
      exact h.slots a
    · rcases h.slots a with e | ⟨-, hz0, -⟩
      · exact .inr ⟨ha, e ▸ hz, h.clear hc⟩
      · exact .inr ⟨ha, hz0, h.clear hc⟩
  used b := h'.used b ∘ h.used b
  frame x hx := by
    by_cases e : sb'.dev.data x = sb.dev.data x
    · obtain ⟨t, hin, ht⟩ := h'.frame x (e ▸ hx)
      exact ⟨t, h.inBlock hin, ht⟩
    · obtain ⟨t, hin, ht⟩ := h.frame x e
      exact ⟨t, hin, h'.holdsTable ht⟩

end

/-- A bit of the bitmap is set, and nothing else. -/
theorem mark (h : Laid sb n) (b : ℕ) :
    Tabled sb n { sb with blockBitmap := bitmapSet sb.blockBitmap b } n := by
  have e : SameGeom sb { sb with blockBitmap := bitmapSet sb.blockBitmap b } := ⟨rfl, rfl, rfl⟩
  have hs := e.slot_dev rfl rfl n
  have hu : ∀ c, bitmapIsSet sb.blockBitmap c = true →
      bitmapIsSet (bitmapSet sb.blockBitmap b) c = true := fun c hc => by simp [isSet_set, hc]
  exact ⟨e, h.congr e hs hu, fun a => .inl (hs a), hu, fun x hx => absurd rfl hx⟩

end Tabled

/-! ## Storing -/

theorem store_geom (sb : MyfsSuperBlock) (n : MyfsInode) (s : Slot) (v : ℕ) :
    SameGeom sb (store sb n s v).1 := by
  cases s <;> first | exact .refl sb | exact .write sb _ _

theorem store_blockBitmap (sb : MyfsSuperBlock) (n : MyfsInode) (s : Slot) (v : ℕ) :
    (store sb n s v).1.blockBitmap = sb.blockBitmap := by
  cases s <;> rfl

theorem write_frame (g : WholeSectors sb) (ht : OnDev sb t) (buf : Buf)
    (hx : (diskWriteBlock sb t buf).dev.data x ≠ sb.dev.data x) : InBlock sb t x := by
  rw [diskWriteBlock_eq g ht] at hx
  by_contra hc
  refine hx (memcpy_out ?_)
  simp only [InBlock] at hc
  omega

theorem Laid.store_frame (h : Laid sb n) (hroom : Room sb n s)
    (hx : (store sb n s v).1.dev.data x ≠ sb.dev.data x) :
    ∃ t, InBlock sb t x ∧ HoldsTable sb n t := by
  have hentry : ∀ a j, ¬ a.IsLeaf → slot sb n a ≠ 0 →
      (writePtrToBlock sb (slot sb n a) j v).dev.data x ≠ sb.dev.data x →
      ∃ t, InBlock sb t x ∧ HoldsTable sb n t := fun a j ha h0 hx =>
    ⟨_, write_frame h.whole (h.placed.dev a ha h0) _ hx, h0, a, ha, rfl⟩
  cases s with
  | direct k => exact absurd rfl hx
  | single => exact absurd rfl hx
  | double => exact absurd rfl hx
  | sEntry j => exact hentry .single j id hroom.1 hx
  | dEntry l => exact hentry .double l id hroom.1 hx
  | ddEntry l j => exact hentry (.dEntry l) j id hroom.1 hx

theorem Room.congr (h : Room sb n s) (e : SameGeom sb sb')
    (hs : ∀ d, slot sb' n d = slot sb n d) : Room sb' n s := by
  cases s with
  | ddEntry l j => exact ⟨(hs _).symm ▸ h.1, e.ptrs.symm ▸ h.2⟩
  | sEntry j => exact ⟨h.1, e.ptrs.symm ▸ h.2⟩
  | dEntry l => exact ⟨h.1, e.ptrs.symm ▸ h.2⟩
  | direct k => trivial
  | single => trivial
  | double => trivial

/-- A block that holds no table is written: the slots are as they were. -/
theorem Laid.slot_write (h : Laid sb n) (hdev : OnDev sb b)
    (hfree : ∀ a, ¬ a.IsLeaf → slot sb n a ≠ b) (buf : Buf) (c : Slot) :
    slot (diskWriteBlock sb b buf) n c = slot sb n c := by
  refine slot_tables (fun a ha k => ?_) c
  simp only [tableEntry, (SameGeom.write sb b buf).ptrs, readPtrFromBlock]
  by_cases h0 : slot sb n a = 0
  · simp [h0]
  · rw [show diskReadBlock (diskWriteBlock sb b buf) (slot sb n a) _ = _ from
      blk_write_ne h.whole hdev (h.placed.dev a ha h0) (hfree a ha) buf]
    rfl

/-- **A new table** in an empty slot. -/
theorem Laid.newTable (h : Laid sb n) (hs : ¬ s.IsLeaf) (hroom : Room sb n s)
    (h0 : slot sb n s = 0) (hb : b < bitmapBlocks sb) (hdev : OnDev sb b) (hb0 : b ≠ 0)
    (hc : bitmapIsSet sb.blockBitmap b = false) {sb1 : MyfsSuperBlock}
    (e : sb1 = diskWriteBlock { sb with blockBitmap := bitmapSet sb.blockBitmap b } b
      (memset sb.uninit 0 0 sb.blockBytes)) :
    slot (store sb1 n s b).1 (store sb1 n s b).2 s = b ∧
      Tabled sb n (store sb1 n s b).1 (store sb1 n s b).2 := by
  have hfree : ∀ a, ¬ a.IsLeaf → slot sb n a ≠ b := fun a ha => h.marked.ne_of_clear hc hb0 ha
  -- the bit is set, and the block is zeroed
  obtain ⟨e0, hl0, -, -, -⟩ := Tabled.mark h b
  have hslot0 := e0.slot_dev rfl rfl n
  have hfree0 : ∀ a, ¬ a.IsLeaf →
      slot { sb with blockBitmap := bitmapSet sb.blockBitmap b } n a ≠ b :=
    fun a ha => hslot0 a ▸ hfree a ha
  have e1 : SameGeom sb sb1 := e ▸ e0.trans (.write ..)
  have hslot1 : ∀ a, slot sb1 n a = slot sb n a := fun a => by
    rw [e, hl0.slot_write (e0.onDev.2 hdev) hfree0, hslot0]
  have hused : ∀ c, c = b ∨ bitmapIsSet sb.blockBitmap c = true →
      bitmapIsSet sb1.blockBitmap c = true := by
    intro c hc
    rw [e]
    change bitmapIsSet (bitmapSet sb.blockBitmap b) c = true
    rw [isSet_set]
    rcases hc with rfl | hc
    · simp
    · simp [hc]
  have hl1 : Laid sb1 n := h.congr e1 hslot1 fun c hc => hused c (.inr hc)
  have hnew : NewTable sb1 n s b := by
    refine ⟨(hslot1 s).trans h0, e1.onDev.2 hdev, fun a ha => hslot1 a ▸ hfree a ha, ?_⟩
    intro o ho
    rw [e1.blockBytes] at ho
    rw [e, blk_write_self hl0.whole (e0.onDev.2 hdev) _ ho]
    exact if_pos ⟨Nat.zero_le o, by omega⟩
  -- the store
  have hroom1 : Room sb1 n s := hroom.congr e1 hslot1
  have e2 := e1.trans (store_geom sb1 n s b)
  have hst : ∀ a, slot (store sb1 n s b).1 (store sb1 n s b).2 a =
      if a = s then b else slot sb n a := fun a => by
    rw [hl1.placed.slot_store hl1.whole (hb.trans_le h.bits32) (fun _ => hnew) hroom1, hslot1]
  have hused' : ∀ c, c = b ∨ bitmapIsSet sb.blockBitmap c = true →
      bitmapIsSet (store sb1 n s b).1.blockBitmap c = true := fun c hc => by
    rw [store_blockBitmap]
    exact hused c hc
  have hself : slot (store sb1 n s b).1 (store sb1 n s b).2 s = b := (hst s).trans (if_pos rfl)
  refine ⟨hself, e2, h.insert e2 hb hdev hfree hst hused', fun a => ?_,
    fun c hc => hused' c (.inr hc), fun x hx => ?_⟩
  · rw [hst]
    split_ifs with has
    · exact .inr ⟨has ▸ hs, has ▸ h0, hc⟩
    · exact .inl rfl
  · by_cases hx1 : (store sb1 n s b).1.dev.data x = sb1.dev.data x
    · rw [hx1, e] at hx
      have hin := write_frame hl0.whole (e0.onDev.2 hdev) _ hx
      exact ⟨b, hin, hb0, s, hs, hself⟩
    · obtain ⟨t, hin, ht0, a, ha, rfl⟩ := hl1.store_frame hroom1 hx1
      refine ⟨_, by simpa only [InBlock, e1.blockBytes] using hin, ht0, a, ha, ?_⟩
      rw [hst a, if_neg, hslot1]
      rintro rfl
      exact ht0 ((hslot1 a).trans h0)

theorem bitmapAlloc_cases (sb : MyfsSuperBlock) : myfsBitmapAlloc sb = (sb, 0) ∨
    ∃ b, bitmapIsSet sb.blockBitmap b = false ∧ sb.onDisk.dataBlocksStart ≤ b ∧
      b < bitmapBlocks sb ∧
      myfsBitmapAlloc sb = ({ sb with blockBitmap := bitmapSet sb.blockBitmap b }, b) := by
  unfold myfsBitmapAlloc
  cases h : findFirstEmptyBit sb.blockBitmap ((sb.onDisk.totalBlocks + 7) / 8)
      sb.onDisk.dataBlocksStart with
  | none => exact .inl rfl
  | some b =>
    obtain ⟨h1, h2, h3⟩ := findFirstEmptyBit_some h
    exact .inr ⟨b, h3, h1, h2, rfl⟩

/-- **`myfs_bitmap_alloc_zeroed` for a table**: there is no block, or the block it returns, stored
    in the slot, is a new table. -/
theorem Laid.allocTable (h : Laid sb n) (hs : ¬ s.IsLeaf) (hroom : Room sb n s)
    (h0 : slot sb n s = 0) :
    (∃ sb1, myfsBitmapAllocZeroed sb = (sb1, 0) ∧ Tabled sb n sb1 n) ∨
    ∃ t sb1, myfsBitmapAllocZeroed sb = (sb1, t) ∧ t ≠ 0 ∧
      slot (store sb1 n s t).1 (store sb1 n s t).2 s = t ∧
      Tabled sb n (store sb1 n s t).1 (store sb1 n s t).2 := by
  rcases bitmapAlloc_cases sb with e | ⟨b, h1, h2, h3, e⟩
  · exact .inl ⟨sb, by simp [myfsBitmapAllocZeroed, e], .refl h⟩
  · by_cases hb : b = 0
    · subst hb
      exact .inl ⟨_, by simp only [myfsBitmapAllocZeroed, e, if_true], .mark h 0⟩
    · obtain ⟨hslot, hT⟩ := h.newTable hs hroom h0 h3 (h.free b h2 h3 h1) hb h1 rfl
      exact .inr ⟨b, _, by simp only [myfsBitmapAllocZeroed, e, if_neg hb], hb, hslot, hT⟩

/-! ## `myfs_map_block_to_inode` -/

/-- What `myfs_map_block_to_inode` does for slot `c`: it makes the tables, then stores; or it runs
    out of blocks. -/
def Mapped (sb : MyfsSuperBlock) (n : MyfsInode) (c : Slot) (phys : ℕ)
    (r : MyfsSuperBlock × MyfsInode × ℤ) : Prop :=
  ∃ sb₁ n₁, Tabled sb n sb₁ n₁ ∧
    (Room sb₁ n₁ c ∧ r = ((store sb₁ n₁ c phys).1, (store sb₁ n₁ c phys).2, 0) ∨
      r = (sb₁, n₁, -1))

section
variable {l j : ℕ} (h : Laid sb n)
include h

theorem Laid.mapSingle (hj : j < ptrsPerBlock sb) (phys : ℕ) :
    Mapped sb n (.sEntry j) phys (mapSingle sb n j phys) := by
  unfold Kabanos.mapSingle
  by_cases h0 : n.singleIndirectPtr = 0
  · rw [if_pos h0]
    rcases h.allocTable (s := .single) id trivial h0 with ⟨sb₁, e, hT⟩ | ⟨t, sb₁, e, ht, hs, hT⟩
    · simp only [e, if_true]
      exact ⟨sb₁, n, hT, .inr rfl⟩
    · simp only [e, if_neg ht]
      exact ⟨_, _, hT, .inl ⟨⟨ht, hT.geom.ptrs.symm ▸ hj⟩, rfl⟩⟩
  · rw [if_neg h0]
    exact ⟨sb, n, .refl h, .inl ⟨⟨h0, hj⟩, rfl⟩⟩

theorem Laid.mapSub (hl : l < ptrsPerBlock sb) (hj : j < ptrsPerBlock sb)
    (hd : n.doubleIndirectPtr ≠ 0) (phys : ℕ) :
    Mapped sb n (.ddEntry l j) phys (mapSub sb n l j phys) := by
  have hread : readPtrFromBlock sb n.doubleIndirectPtr l = slot sb n (.dEntry l) := by
    simp [slot, tableEntry, hd, hl]
  unfold Kabanos.mapSub
  simp only [hread]
  by_cases h0 : slot sb n (.dEntry l) = 0
  · rw [if_pos h0]
    rcases h.allocTable (s := .dEntry l) id ⟨hd, hl⟩ h0 with ⟨sb₁, e, hT⟩ | ⟨t, sb₁, e, ht, hs, hT⟩
    · simp only [e, if_true]
      exact ⟨sb₁, n, hT, .inr rfl⟩
    · simp only [e, if_neg ht]
      refine ⟨_, _, hT, .inl ⟨⟨by rw [hs]; exact ht, hT.geom.ptrs.symm ▸ hj⟩, ?_⟩⟩
      simp only [store] at hs ⊢
      rw [hs]
  · rw [if_neg h0]
    exact ⟨sb, n, .refl h, .inl ⟨⟨h0, hj⟩, rfl⟩⟩

theorem Laid.mapDouble (hl : l < ptrsPerBlock sb) (hj : j < ptrsPerBlock sb) (phys : ℕ) :
    Mapped sb n (.ddEntry l j) phys (mapDouble sb n l j phys) := by
  unfold Kabanos.mapDouble
  by_cases h0 : n.doubleIndirectPtr = 0
  · rw [if_pos h0]
    rcases h.allocTable (s := .double) id trivial h0 with ⟨sb₁, e, hT⟩ | ⟨t, sb₁, e, ht, hs, hT⟩
    · simp only [e, if_true]
      exact ⟨sb₁, n, hT, .inr rfl⟩
    · simp only [e, if_neg ht]
      have hp := hT.geom.ptrs.symm
      obtain ⟨sb₂, n₂, hT2, hr⟩ := hT.laid.mapSub (hp ▸ hl) (hp ▸ hj) ht phys
      exact ⟨sb₂, n₂, hT.trans hT2, hr⟩
  · rw [if_neg h0]
    exact h.mapSub hl hj h0 phys

/-- **`myfs_map_block_to_inode`** stores the block in the slot of the index, after making the
    tables it needs. -/
theorem Laid.map {idx : ℕ} (hc : leafOf sb idx = some s) (phys : ℕ) :
    Mapped sb n s phys (myfsMapBlockToInode sb n idx phys) := by
  unfold myfsMapBlockToInode
  unfold leafOf at hc
  simp only [Nat.mod_eq_of_lt h.ptrs32]
  by_cases h1 : idx < 10
  · simp only [h1, dite_true, Option.some.injEq] at hc ⊢
    subst hc
    exact ⟨sb, n, .refl h, .inl ⟨trivial, rfl⟩⟩
  simp only [h1, dite_false] at hc ⊢
  by_cases h2 : idx - 10 < ptrsPerBlock sb
  · simp only [h2, if_true, Option.some.injEq] at hc ⊢
    subst hc
    exact h.mapSingle h2 phys
  simp only [h2, if_false] at hc ⊢
  by_cases h3 : idx - 10 - ptrsPerBlock sb < ptrsPerBlock sb * ptrsPerBlock sb
  · simp only [h3, if_true, Option.some.injEq] at hc ⊢
    subst hc
    have hl := Nat.div_lt_of_lt_mul h3
    exact h.mapDouble hl (Nat.mod_lt _ (Nat.zero_lt_of_lt hl)) phys
  · simp only [h3, if_false, reduceCtorEq] at hc

end

/-! ## The law -/

theorem Blocks.whole (g : Blocks sb) (h : 0 < ptrsPerBlock sb) : WholeSectors sb := by
  refine ⟨g.bytes, Nat.pos_of_ne_zero fun h0 => ?_, g.dev32⟩
  rw [ptrsPerBlock, h0] at h
  exact absurd h (lt_irrefl 0)

/-- Without room for a pointer in a block there are the direct pointers only. -/
theorem map_direct (h0 : ptrsPerBlock sb = 0) {i : ℕ} (hi : i < 10)
    (hmap : myfsMapBlockToInode sb n i v = (sb', n', 0)) :
    sb' = sb ∧ myfsBlockLbaGet sb' n' i = v ∧
      ∀ j, j ≠ i → myfsBlockLbaGet sb' n' j = myfsBlockLbaGet sb n j := by
  rw [myfsMapBlockToInode] at hmap
  simp only [dif_pos hi] at hmap
  cases hmap
  refine ⟨rfl, ?_, fun j hj => ?_⟩
  · rw [myfsBlockLbaGet]
    simp only [dif_pos hi, Function.update_self]
  · simp only [myfsBlockLbaGet, h0, Nat.not_lt_zero, if_false]
    by_cases h10 : j < 10
    · rw [dif_pos h10, dif_pos h10]
      exact Function.update_of_ne (fun e => hj (Fin.mk.inj_iff.1 e)) ..
    · rw [dif_neg h10, dif_neg h10]

end

theorem sectorFs_blocks {sectors : ℕ} (h : sectors ≤ 2 ^ 32) (totalBlocks : ℕ) (used : UInt8) :
    Blocks (sectorFs sectors totalBlocks used) :=
  ⟨(sectorFs_whole h ..).bytes, h, by norm_num [ptrsPerBlock, sectorFs]⟩

/-- With the single-indirect pointer alone there is at most one table. -/
theorem slot_single {sb : MyfsSuperBlock} {n : MyfsInode} (h : n.doubleIndirectPtr = 0) {a : Slot}
    (ha : ¬ a.IsLeaf) (h0 : slot sb n a ≠ 0) : a = .single := by
  cases a with
  | single => rfl
  | double => exact absurd h h0
  | dEntry l => exact absurd (slot_of_empty (a := .double) rfl h) h0
  | direct k => exact absurd trivial ha
  | sEntry j => exact absurd trivial ha
  | ddEntry l j => exact absurd trivial ha

theorem slot_none {sb : MyfsSuperBlock} {n : MyfsInode} (h1 : n.singleIndirectPtr = 0)
    (h2 : n.doubleIndirectPtr = 0) {a : Slot} (ha : ¬ a.IsLeaf) : slot sb n a = 0 := by
  by_contra h
  obtain rfl := slot_single h2 ha h
  exact h h1

end Kabanos
