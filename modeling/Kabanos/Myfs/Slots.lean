/-
  The places where an inode stores block numbers.

  A `Slot` is a direct pointer, one of the two indirect pointers, or an entry of an indirect table;
  `slot sb n s` is the block number stored there, `0` for none.  `myfs_block_lba_get` reads the slot
  `leafOf sb idx`, and `store` is what a write to a slot does.
-/
import Kabanos.Myfs.Blocks
import Kabanos.Myfs.Spans

namespace Kabanos

variable {sb sb' : MyfsSuperBlock} {n : MyfsInode} {idx b : ℕ}

/-! ## Blocks of the device -/

/-- The states of one mounted file system: everything the geometry depends on is the same. -/
structure SameGeom (sb sb' : MyfsSuperBlock) : Prop where
  onDisk : sb'.onDisk = sb.onDisk
  blockBytes : sb'.blockBytes = sb.blockBytes
  sectors : sb'.dev.sectors = sb.dev.sectors

namespace SameGeom
variable {sb'' : MyfsSuperBlock}

theorem refl (sb : MyfsSuperBlock) : SameGeom sb sb := ⟨rfl, rfl, rfl⟩

theorem trans (h : SameGeom sb sb') (h' : SameGeom sb' sb'') : SameGeom sb sb'' :=
  ⟨h'.1.trans h.1, h'.2.trans h.2, h'.3.trans h.3⟩

theorem write (sb : MyfsSuperBlock) (b : ℕ) (buf : Buf) :
    SameGeom sb (diskWriteBlock sb b buf) := by
  refine ⟨rfl, rfl, ?_⟩
  simp only [diskWriteBlock, BlkDev.writeSectors]
  split_ifs <;> rfl

theorem ptrs (h : SameGeom sb sb') : ptrsPerBlock sb' = ptrsPerBlock sb := by
  simp only [ptrsPerBlock, h.blockBytes]

theorem onDev (h : SameGeom sb sb') : OnDev sb' b ↔ OnDev sb b := by
  simp only [OnDev, h.onDisk, h.sectors]

theorem whole (h : SameGeom sb sb') (g : WholeSectors sb) : WholeSectors sb' := by
  obtain ⟨h1, h2, h3⟩ := h
  exact ⟨by rw [h1, h2]; exact g.bytes, by rw [h2]; exact g.pos, by rw [h3]; exact g.dev32⟩

end SameGeom

/-- The contents of block `b`, as read into a fresh buffer. -/
def blk (sb : MyfsSuperBlock) (b : ℕ) : Buf := diskReadBlock sb b sb.uninit

section
variable (g : WholeSectors sb)
include g

theorem WholeSectors.four_ptrs : 4 * ptrsPerBlock sb = sb.blockBytes := by
  rw [ptrsPerBlock, g.bytes]
  omega

theorem blk_ge {o : ℕ} (ho : sb.blockBytes ≤ o) : blk sb b o = sb.uninit o := by
  have hb := g.bytes
  simp only [blk, diskReadBlock, BlkDev.readSectors]
  split_ifs
  · rw [memcpy_out]
    omega
  · rfl

theorem blk_setData (h : OnDev sb b) (d : Buf) {o : ℕ} (ho : o < sb.blockBytes) :
    blk (sb.setData d) b o = d (b * sb.blockBytes + o) :=
  @diskReadBlock_apply (sb.setData d) b (g.setData d) (h.setData d) _ o ho

theorem blk_write_self (h : OnDev sb b) (buf : Buf) {o : ℕ} (ho : o < sb.blockBytes) :
    blk (diskWriteBlock sb b buf) b o = buf o := by
  rw [diskWriteBlock_eq g h, blk_setData g h _ ho, memcpy_in (by omega) (by omega)]
  congr 1
  omega

theorem blk_write_ne {c : ℕ} (h : OnDev sb b) (hc : OnDev sb c) (hne : c ≠ b) (buf : Buf) :
    blk (diskWriteBlock sb b buf) c = blk sb c := by
  funext o
  by_cases ho : o < sb.blockBytes
  · rw [diskWriteBlock_eq g h, blk_setData g hc _ ho, blk, diskReadBlock_apply g hc _ ho]
    refine memcpy_out ?_
    rcases Nat.lt_or_gt_of_ne hne with hlt | hlt
    · have := Nat.mul_le_mul_right sb.blockBytes (Nat.succ_le_of_lt hlt)
      rw [Nat.succ_mul] at this
      omega
    · have := Nat.mul_le_mul_right sb.blockBytes (Nat.succ_le_of_lt hlt)
      rw [Nat.succ_mul] at this
      omega
  · rw [blk_ge ((SameGeom.write sb b buf).whole g) (not_lt.1 ho), blk_ge g (not_lt.1 ho)]
    rfl

end

/-! ## Slots -/

/-- A place where an inode stores a block number: in the record, in the
    single-indirect table, in the master table, or in sub-table `l`. -/
inductive Slot where
  | direct (k : Fin 10)
  | single
  | double
  | sEntry (j : ℕ)
  | dEntry (l : ℕ)
  | ddEntry (l j : ℕ)
  deriving DecidableEq

/-- Entry `j` of the table in block `t`; `0` if there is no such table or
    entry. -/
def tableEntry (sb : MyfsSuperBlock) (t j : ℕ) : ℕ :=
  if t ≠ 0 ∧ j < ptrsPerBlock sb then readPtrFromBlock sb t j else 0

/-- The block number stored in a slot. -/
def slot (sb : MyfsSuperBlock) (n : MyfsInode) : Slot → ℕ
  | .direct k => n.blockPtrs k
  | .single => n.singleIndirectPtr
  | .double => n.doubleIndirectPtr
  | .sEntry j => tableEntry sb n.singleIndirectPtr j
  | .dEntry l => tableEntry sb n.doubleIndirectPtr l
  | .ddEntry l j => tableEntry sb (tableEntry sb n.doubleIndirectPtr l) j

/-- The slots that hold data blocks; the others hold tables. -/
def Slot.IsLeaf : Slot → Prop
  | .direct _ => True
  | .sEntry _ => True
  | .ddEntry _ _ => True
  | _ => False

/-- Entry `j` of the table that a slot holds. -/
def Slot.child : Slot → ℕ → Option Slot
  | .single, j => some (.sEntry j)
  | .double, j => some (.dEntry j)
  | .dEntry l, j => some (.ddEntry l j)
  | _, _ => none

/-- The slot of a file-relative block index. -/
def leafOf (sb : MyfsSuperBlock) (idx : ℕ) : Option Slot :=
  let ptrs := ptrsPerBlock sb
  if h : idx < 10 then some (.direct ⟨idx, h⟩)
  else if idx - 10 < ptrs then some (.sEntry (idx - 10))
  else if idx - 10 - ptrs < ptrs * ptrs then
    some (.ddEntry ((idx - 10 - ptrs) / ptrs) ((idx - 10 - ptrs) % ptrs))
  else none

/-- The number of blocks a file can have. -/
def maxBlocks (sb : MyfsSuperBlock) : ℕ := 10 + ptrsPerBlock sb + ptrsPerBlock sb * ptrsPerBlock sb

theorem SameGeom.leafOf (h : SameGeom sb sb') (idx : ℕ) :
    Kabanos.leafOf sb' idx = Kabanos.leafOf sb idx := by
  simp only [Kabanos.leafOf, h.ptrs]

theorem tableEntry_zero (sb : MyfsSuperBlock) (j : ℕ) : tableEntry sb 0 j = 0 := by
  simp [tableEntry]

theorem slot_tables
    (hT : ∀ a, ¬ a.IsLeaf → ∀ k, tableEntry sb' (slot sb n a) k = tableEntry sb (slot sb n a) k)
    (c : Slot) : slot sb' n c = slot sb n c := by
  cases c with
  | direct k => rfl
  | single => rfl
  | double => rfl
  | sEntry j => exact hT .single (by simp [Slot.IsLeaf]) j
  | dEntry l => exact hT .double (by simp [Slot.IsLeaf]) l
  | ddEntry l j =>
    have h1 : tableEntry sb' n.doubleIndirectPtr l = slot sb n (.dEntry l) :=
      hT .double (by simp [Slot.IsLeaf]) l
    change tableEntry sb' (tableEntry sb' n.doubleIndirectPtr l) j = _
    rw [h1]
    exact hT (.dEntry l) (by simp [Slot.IsLeaf]) j

theorem SameGeom.slot_dev (e : SameGeom sb sb') (hd : sb'.dev = sb.dev)
    (hu : sb'.uninit = sb.uninit) (n : MyfsInode) (c : Slot) : slot sb' n c = slot sb n c := by
  refine slot_tables (fun a _ k => ?_) c
  simp only [tableEntry, e.ptrs, readPtrFromBlock, diskReadBlock, hd, hu, e.onDisk]

theorem leafOf_cases (sb : MyfsSuperBlock) (idx : ℕ) :
    (∃ h : idx < 10, leafOf sb idx = some (.direct ⟨idx, h⟩)) ∨
    (∃ j < ptrsPerBlock sb, idx = 10 + j ∧ leafOf sb idx = some (.sEntry j)) ∨
    (∃ l < ptrsPerBlock sb, ∃ j < ptrsPerBlock sb,
      idx = 10 + ptrsPerBlock sb + ptrsPerBlock sb * l + j ∧
      leafOf sb idx = some (.ddEntry l j)) ∨
    (maxBlocks sb ≤ idx ∧ leafOf sb idx = none) := by
  unfold leafOf maxBlocks
  by_cases h1 : idx < 10
  · exact .inl ⟨h1, dif_pos h1⟩
  rw [dif_neg h1]
  by_cases h2 : idx - 10 < ptrsPerBlock sb
  · exact .inr (.inl ⟨idx - 10, h2, by omega, if_pos h2⟩)
  rw [if_neg h2]
  by_cases h3 : idx - 10 - ptrsPerBlock sb < ptrsPerBlock sb * ptrsPerBlock sb
  · refine .inr (.inr (.inl ⟨_, Nat.div_lt_of_lt_mul h3, _, Nat.mod_lt _ ?_, ?_, if_pos h3⟩))
    · exact Nat.pos_of_mul_pos_right (Nat.zero_lt_of_lt h3)
    · rw [Nat.add_assoc, Nat.div_add_mod]; omega
  · exact .inr (.inr (.inr ⟨by omega, if_neg h3⟩))

/-- The file-relative block index of a slot for data blocks. -/
def Slot.index (ptrs : ℕ) : Slot → ℕ
  | .direct k => k
  | .sEntry j => 10 + j
  | .ddEntry l j => 10 + ptrs + ptrs * l + j
  | _ => 0

theorem leafOf_isLeaf {s : Slot} (h : leafOf sb idx = some s) : s.IsLeaf := by
  rcases leafOf_cases sb idx with ⟨_, e⟩ | ⟨_, _, _, e⟩ | ⟨_, _, _, _, _, e⟩ | ⟨_, e⟩ <;>
    rw [e] at h <;> cases h <;> trivial

theorem leafOf_index {s : Slot} (h : leafOf sb idx = some s) : s.index (ptrsPerBlock sb) = idx := by
  rcases leafOf_cases sb idx with ⟨_, e⟩ | ⟨_, _, hi, e⟩ | ⟨_, _, _, _, hi, e⟩ | ⟨_, e⟩ <;>
    rw [e] at h <;> cases h <;> simp only [Slot.index] <;> omega

theorem leafOf_inj {s : Slot} {i j : ℕ} (hi : leafOf sb i = some s)
    (hj : leafOf sb j = some s) : i = j :=
  (leafOf_index hi).symm.trans (leafOf_index hj)

theorem leafOf_none_iff : leafOf sb idx = none ↔ maxBlocks sb ≤ idx := by
  rcases leafOf_cases sb idx with ⟨h, e⟩ | ⟨j, hj, hi, e⟩ | ⟨l, hl, j, hj, hi, e⟩ | ⟨h, e⟩ <;>
    simp only [e, reduceCtorEq, false_iff, true_iff, maxBlocks, not_le]
  · omega
  · omega
  · have : ptrsPerBlock sb * l + ptrsPerBlock sb ≤ ptrsPerBlock sb * ptrsPerBlock sb := by
      rw [← Nat.mul_succ]; exact Nat.mul_le_mul_left _ hl
    omega
  · exact h

theorem leafOf_some_of_lt (h : idx < maxBlocks sb) : ∃ s, leafOf sb idx = some s := by
  rw [← Option.ne_none_iff_exists', Ne, leafOf_none_iff]; omega

/-- The block of an index, read slot by slot. -/
def lbaOf (sb : MyfsSuperBlock) (n : MyfsInode) (idx : ℕ) : ℕ :=
  ((leafOf sb idx).map (slot sb n)).getD 0

/-- **`myfs_block_lba_get` reads the slot of the index.** -/
theorem lbaGet_eq (h32 : ptrsPerBlock sb * ptrsPerBlock sb < 2 ^ 32) (n : MyfsInode) (idx : ℕ) :
    myfsBlockLbaGet sb n idx = lbaOf sb n idx := by
  unfold myfsBlockLbaGet lbaOf leafOf
  simp only [Nat.mod_eq_of_lt h32]
  by_cases h1 : idx < 10
  · simp [h1, slot]
  simp only [h1, dite_false]
  by_cases h2 : idx - 10 < ptrsPerBlock sb
  · simp only [h2, if_true, Option.map_some, Option.getD_some, slot, tableEntry]
    split_ifs with ha hb hb
    · exact absurd ha hb.1
    · rfl
    · rfl
    · exact absurd ⟨ha, trivial⟩ hb
  simp only [h2, if_false]
  by_cases h3 : idx - 10 - ptrsPerBlock sb < ptrsPerBlock sb * ptrsPerBlock sb
  · have hl := Nat.div_lt_of_lt_mul h3
    have hm := Nat.mod_lt (idx - 10 - ptrsPerBlock sb) (Nat.zero_lt_of_lt hl)
    simp only [h3, if_true, Option.map_some, Option.getD_some, slot, tableEntry, hl, hm, and_true]
    by_cases hd : n.doubleIndirectPtr = 0
    · simp [hd]
    · simp only [hd, if_false, ne_eq, not_false_eq_true, if_true]
      split_ifs <;> rfl
  · simp [h3]

theorem lbaOf_some {s : Slot} (h : leafOf sb idx = some s) : lbaOf sb n idx = slot sb n s := by
  simp [lbaOf, h]

theorem lbaOf_none (h : leafOf sb idx = none) : lbaOf sb n idx = 0 := by
  simp [lbaOf, h]

/-! ## Tables -/

/-- Every byte of block `b` is zero. -/
def Zeroed (sb : MyfsSuperBlock) (b : ℕ) : Prop := ∀ o < sb.blockBytes, blk sb b o = 0

section
variable (g : WholeSectors sb)
include g

theorem Zeroed.tableEntry {b : ℕ} (h : Zeroed sb b) (j : ℕ) : tableEntry sb b j = 0 := by
  unfold Kabanos.tableEntry
  split_ifs with hj
  · have h4 := g.four_ptrs
    refine getU32_zero fun o h1 h2 => h o ?_
    have := hj.2; omega
  · rfl

theorem blk_writePtr {t j : ℕ} (ht : OnDev sb t) (hj : j < ptrsPerBlock sb) (v : ℕ) :
    blk (writePtrToBlock sb t j v) t = putU32 (blk sb t) (4 * j) v := by
  have h4 := g.four_ptrs
  have e := SameGeom.write sb t (putU32 (blk sb t) (4 * j) v)
  funext o
  by_cases ho : o < sb.blockBytes
  · exact blk_write_self g ht _ ho
  · change blk (diskWriteBlock sb t (putU32 (blk sb t) (4 * j) v)) t o = _
    rw [blk_ge (e.whole g) (by rw [e.blockBytes]; omega), putU32, if_neg (by omega),
      blk_ge g (by omega)]
    rfl

theorem tableEntry_writePtr {t j v b k : ℕ} (ht : OnDev sb t) (hz : t ≠ 0)
    (hj : j < ptrsPerBlock sb) (hv : v < 2 ^ 32) (hb : b = 0 ∨ OnDev sb b) :
    tableEntry (writePtrToBlock sb t j v) b k =
      if b = t ∧ k = j then v else tableEntry sb b k := by
  have e : SameGeom sb (writePtrToBlock sb t j v) := SameGeom.write _ _ _
  have hread : ∀ sb : MyfsSuperBlock, ∀ b k, readPtrFromBlock sb b k = getU32 (blk sb b) (4 * k) :=
    fun _ _ _ => rfl
  simp only [tableEntry, e.ptrs, hread]
  by_cases hbt : b = t
  · subst hbt
    rw [blk_writePtr g ht hj]
    by_cases hk : k = j
    · subst hk
      simp [hz, hj, getU32_putU32 _ _ hv]
    · rw [getU32_putU32_ne _ _ (by omega)]
      simp [hk]
  · rw [if_neg (by tauto : ¬(b = t ∧ k = j))]
    rcases hb with rfl | hb
    · simp
    · rw [show blk (writePtrToBlock sb t j v) b = blk sb b from blk_write_ne g ht hb hbt _]

end

/-! ## Storing a block number -/

/-- The table that contains slot `s` exists. -/
def Room (sb : MyfsSuperBlock) (n : MyfsInode) : Slot → Prop
  | .sEntry j => n.singleIndirectPtr ≠ 0 ∧ j < ptrsPerBlock sb
  | .dEntry l => n.doubleIndirectPtr ≠ 0 ∧ l < ptrsPerBlock sb
  | .ddEntry l j => slot sb n (.dEntry l) ≠ 0 ∧ j < ptrsPerBlock sb
  | _ => True

/-- Store `v` in a slot: in the record, or in the table on disk. -/
def store (sb : MyfsSuperBlock) (n : MyfsInode) (s : Slot) (v : ℕ) : MyfsSuperBlock × MyfsInode :=
  match s with
  | .direct k => (sb, { n with blockPtrs := Function.update n.blockPtrs k v })
  | .single => (sb, { n with singleIndirectPtr := v })
  | .double => (sb, { n with doubleIndirectPtr := v })
  | .sEntry j => (writePtrToBlock sb n.singleIndirectPtr j v, n)
  | .dEntry l => (writePtrToBlock sb n.doubleIndirectPtr l v, n)
  | .ddEntry l j => (writePtrToBlock sb (slot sb n (.dEntry l)) j v, n)

section
variable {a d s : Slot} {j k v : ℕ}

theorem slot_child (h : a.child k = some d) : slot sb n d = tableEntry sb (slot sb n a) k := by
  cases a <;> cases h <;> rfl

theorem slot_of_empty (h : a.child k = some d) (h0 : slot sb n a = 0) : slot sb n d = 0 := by
  rw [slot_child h, h0, tableEntry_zero]

theorem child_inj {c : Slot} (h : a.child j = some d) (h' : c.child k = some d) :
    a = c ∧ j = k := by
  cases a <;> cases h <;> cases c <;> cases h' <;> exact ⟨rfl, rfl⟩

/-- The tables of an inode are different blocks. -/
def TablesApart (sb : MyfsSuperBlock) (n : MyfsInode) : Prop :=
  ∀ a b, ¬ a.IsLeaf → ¬ b.IsLeaf → slot sb n a ≠ 0 → slot sb n b = slot sb n a → b = a

/-- The tables of an inode lie on the device. -/
def TablesOnDev (sb : MyfsSuperBlock) (n : MyfsInode) : Prop :=
  ∀ a, ¬ a.IsLeaf → slot sb n a ≠ 0 → OnDev sb (slot sb n a)

/-- The tables of an inode are blocks of the device, each in one slot only. -/
structure Placed (sb : MyfsSuperBlock) (n : MyfsInode) : Prop where
  dev : TablesOnDev sb n
  apart : TablesApart sb n

theorem Placed.zero_or_onDev (p : Placed sb n) (ha : ¬ a.IsLeaf) :
    slot sb n a = 0 ∨ OnDev sb (slot sb n a) :=
  or_iff_not_imp_left.2 (p.dev a ha)

theorem child_table (h : a.child k = some d) : ¬ a.IsLeaf := by
  cases a <;> cases h <;> exact id

/-- What may be stored in a slot for tables: a zeroed block that holds no table, if the slot is
    empty. -/
structure NewTable (sb : MyfsSuperBlock) (n : MyfsInode) (s : Slot) (v : ℕ) : Prop where
  empty : slot sb n s = 0
  dev : OnDev sb v
  free : ∀ a, ¬ a.IsLeaf → slot sb n a ≠ v
  zeroed : Zeroed sb v

section
variable (g : WholeSectors sb) (p : Placed sb n) (hv : v < 2 ^ 32)
  (ht : ¬ s.IsLeaf → NewTable sb n s v)
include g p hv ht

theorem Placed.slot_writePtr (hs : a.child j = some s) (ha : slot sb n a ≠ 0)
    (hj : j < ptrsPerBlock sb) (c : Slot) :
    slot (writePtrToBlock sb (slot sb n a) j v) n c = if c = s then v else slot sb n c := by
  have hat := child_table hs
  set sb' := writePtrToBlock sb (slot sb n a) j v with hsb'
  have hE : ∀ b k, b = 0 ∨ OnDev sb b → tableEntry sb' b k =
      if b = slot sb n a ∧ k = j then v else tableEntry sb b k := fun b k hb =>
    tableEntry_writePtr g (p.dev a hat ha) ha hj hv hb
  -- an entry of a table that is itself in place
  have hchild : ∀ b k d, b.child k = some d → slot sb' n b = slot sb n b →
      slot sb' n d = if d = s then v else slot sb n d := by
    intro b k d hd hb
    have hbt := child_table hd
    rw [slot_child hd, hb, hE _ _ (p.zero_or_onDev hbt), slot_child hd]
    refine if_congr ⟨fun ⟨he, hk⟩ => ?_, fun he => ?_⟩ rfl rfl
    · obtain rfl := p.apart a b hat hbt ha he
      subst hk
      exact Option.some.inj (hd.symm.trans hs)
    · subst he
      obtain ⟨rfl, rfl⟩ := child_inj hd hs
      exact ⟨rfl, rfl⟩
  cases c with
  | direct k => rw [if_neg (by rintro rfl; cases a <;> cases hs)]; rfl
  | single => rw [if_neg (by rintro rfl; cases a <;> cases hs)]; rfl
  | double => rw [if_neg (by rintro rfl; cases a <;> cases hs)]; rfl
  | sEntry k => exact hchild .single k _ rfl rfl
  | dEntry l => exact hchild .double l _ rfl rfl
  | ddEntry l k =>
    have hd := hchild .double l _ rfl rfl
    by_cases hc : Slot.dEntry l = s
    · -- the sub-table is the new one, and it is empty
      subst hc
      have hnew := ht id
      rw [if_pos rfl] at hd
      have h0 : slot sb n (.ddEntry l k) = 0 := slot_of_empty (a := .dEntry l) rfl hnew.empty
      rw [if_neg (by simp), h0, slot_child (show (Slot.dEntry l).child k = _ from rfl), hd,
        hE _ _ (.inr hnew.dev), if_neg fun h' => hnew.free a hat h'.1.symm,
        hnew.zeroed.tableEntry g]
    · rw [if_neg hc] at hd
      exact hchild (.dEntry l) k _ rfl hd

/-- **A store** changes the slot, and no other one. -/
theorem Placed.slot_store (hroom : Room sb n s) (c : Slot) :
    slot (store sb n s v).1 (store sb n s v).2 c = if c = s then v else slot sb n c := by
  cases s with
  | direct k =>
    cases c with
    | direct k' => simp only [store, slot, Function.update_apply, Slot.direct.injEq]
    | _ => rfl
  | single =>
    have hnew := ht id
    cases c with
    | single => rfl
    | sEntry j =>
      have h0 : slot sb n (.sEntry j) = 0 := slot_of_empty (a := .single) rfl hnew.empty
      rw [if_neg (by simp), h0]
      exact hnew.zeroed.tableEntry g j
    | _ => rfl
  | double =>
    have hnew := ht id
    have hd : ∀ l, slot sb n (.dEntry l) = 0 := fun l =>
      slot_of_empty (a := .double) rfl hnew.empty
    cases c with
    | double => rfl
    | dEntry l =>
      rw [if_neg (by simp), hd]
      exact hnew.zeroed.tableEntry g l
    | ddEntry l j =>
      have h0 : slot sb n (.ddEntry l j) = 0 := slot_of_empty (a := .dEntry l) rfl (hd l)
      rw [if_neg (by simp), h0]
      change tableEntry sb (tableEntry sb v l) j = 0
      rw [hnew.zeroed.tableEntry g, tableEntry_zero]
    | _ => rfl
  | sEntry j => exact p.slot_writePtr g hv ht (a := .single) rfl hroom.1 hroom.2 c
  | dEntry l => exact p.slot_writePtr g hv ht (a := .double) rfl hroom.1 hroom.2 c
  | ddEntry l j => exact p.slot_writePtr g hv ht (a := .dEntry l) rfl hroom.1 hroom.2 c

end

end

end Kabanos
