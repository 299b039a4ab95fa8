/-
  Blocks of the device, and the copies over several blocks.

  Where the blocks lie on the device, `disk_rw_spanning` is a `memcpy` between its buffer and the
  contents of the device, and so are the transfers of the bitmaps.
-/
import Kabanos.Myfs.Disk

namespace Kabanos

/-- Block `b` lies on the device. -/
def OnDev (sb : MyfsSuperBlock) (b : ℕ) : Prop :=
  (b + 1) * sb.onDisk.blockSectors ≤ sb.dev.sectors

/-- Blocks are whole sectors, on a device whose sectors have 32-bit numbers. -/
structure WholeSectors (sb : MyfsSuperBlock) : Prop where
  bytes : sb.blockBytes = sb.onDisk.blockSectors * 512
  pos : 0 < sb.blockBytes
  dev32 : sb.dev.sectors ≤ 2 ^ 32

/-- The file system with other device contents. -/
def MyfsSuperBlock.setData (sb : MyfsSuperBlock) (d : Buf) : MyfsSuperBlock :=
  { sb with dev := { sb.dev with data := d } }

variable {sb : MyfsSuperBlock} {b : ℕ}

theorem WholeSectors.setData (g : WholeSectors sb) (d : Buf) : WholeSectors (sb.setData d) :=
  ⟨g.bytes, g.pos, g.dev32⟩

theorem OnDev.setData (h : OnDev sb b) (d : Buf) : OnDev (sb.setData d) b := h

/-- A file system of one-sector blocks on a device of `sectors` sectors, with the inode table at its
    start; the bytes of the block bitmap are `used`. -/
def sectorFs (sectors totalBlocks : ℕ) (used : UInt8) : MyfsSuperBlock where
  heap _ := MyfsInode.zero
  brk := 0
  mem _ := true
  entryMem _ := true
  uninit _ := 0
  onDisk := ⟨0, 0, totalBlocks, 0, 0, 1, 1, 0, 0, 0, 1, 0⟩
  dev := ⟨sectors, fun _ => 0⟩
  blockBytes := 512
  blockBitmap _ := used
  inodeBitmap _ := 0
  inodeHashTable _ := []

theorem sectorFs_whole {sectors : ℕ} (h : sectors ≤ 2 ^ 32) (totalBlocks : ℕ) (used : UInt8) :
    WholeSectors (sectorFs sectors totalBlocks used) :=
  ⟨by norm_num [sectorFs], by norm_num [sectorFs], by simpa only [sectorFs] using h⟩

/-! ## One block -/

theorem OnDev.range (h : OnDev sb b) :
    b * sb.onDisk.blockSectors + sb.onDisk.blockSectors ≤ sb.dev.sectors := by
  have h1 : (b + 1) * sb.onDisk.blockSectors ≤ sb.dev.sectors := h
  rwa [Nat.add_mul, Nat.one_mul] at h1

section
variable (g : WholeSectors sb) (h : OnDev sb b)
include g

theorem WholeSectors.addr (b : ℕ) : b * sb.onDisk.blockSectors * 512 = b * sb.blockBytes := by
  rw [g.bytes, Nat.mul_assoc]

include h

theorem OnDev.lba : b * sb.onDisk.blockSectors % 2 ^ 32 = b * sb.onDisk.blockSectors := by
  have h1 := h.range
  have h2 := g.dev32
  have h3 := g.bytes
  have h4 := g.pos
  exact Nat.mod_eq_of_lt (by omega)

theorem diskReadBlock_apply (buf : Buf) {o : ℕ} (ho : o < sb.blockBytes) :
    diskReadBlock sb b buf o = sb.dev.data (b * sb.blockBytes + o) := by
  have hb := g.bytes
  simp only [diskReadBlock, BlkDev.readSectors, h.lba g, h.range, if_true]
  rw [memcpy_in (by omega) (by omega), g.addr, Nat.sub_zero]

theorem diskWriteBlock_eq (buf : Buf) : diskWriteBlock sb b buf =
    sb.setData (memcpy sb.dev.data (b * sb.blockBytes) buf 0 sb.blockBytes) := by
  simp only [diskWriteBlock, BlkDev.writeSectors, h.lba g, h.range, if_true]
  rw [g.addr, ← g.bytes]
  rfl

/-- The read-modify-write of a part of a block; what the block held before is needed where a part
    stays. -/
theorem diskWriteBlock_part {buf data : Buf} {off ptr n : ℕ} (hn : off + n ≤ sb.blockBytes)
    (hbuf : off ≠ 0 ∨ n < sb.blockBytes →
      ∀ o < sb.blockBytes, buf o = sb.dev.data (b * sb.blockBytes + o)) :
    diskWriteBlock sb b (memcpy buf off data ptr n) =
      sb.setData (memcpy sb.dev.data (b * sb.blockBytes + off) data ptr n) := by
  rw [diskWriteBlock_eq g h]
  congr 1
  funext j
  by_cases hj : b * sb.blockBytes ≤ j ∧ j < b * sb.blockBytes + sb.blockBytes
  · rw [memcpy_in hj.1 hj.2]
    by_cases hd : off ≤ j - b * sb.blockBytes ∧ j - b * sb.blockBytes < off + n
    · rw [memcpy_in (by omega) (by omega), memcpy_in (by omega) (by omega)]
      congr 1
      omega
    · rw [memcpy_out (by omega), memcpy_out (by omega), hbuf (by omega) _ (by omega)]
      congr 1
      omega
  · rw [memcpy_out (by omega), memcpy_out (by omega)]

end

/-! ## Several blocks -/

section
variable {data : Buf} {ptr rem cur off bb : ℕ}

/-- A block that the rest of a copy reaches is one that the copy reaches. -/
theorem span_next (ho : off < bb) (h0 : rem ≠ 0)
    (hb : b * bb < (cur + 1) * bb + 0 + (rem - min (bb - off) rem)) :
    b * bb < cur * bb + off + rem := by
  have hm : (cur + 1) * bb = cur * bb + bb := Nat.succ_mul ..
  rcases Nat.lt_or_ge cur b with h | h
  · have : (cur + 1) * bb ≤ b * bb := Nat.mul_le_mul_right bb h
    omega
  · have := Nat.mul_le_mul_right bb h
    omega

/-- The first part of a copy ends the copy, or it ends at the next block. -/
theorem span_part (rem cur : ℕ) (ho : off < bb) :
    rem - min (bb - off) rem = 0 ∧ min (bb - off) rem = rem ∨
      (cur + 1) * bb + 0 = cur * bb + off + min (bb - off) rem := by
  rw [Nat.succ_mul]
  omega

theorem rwSpanningLoop_read (g : WholeSectors sb) (fuel : ℕ) (hf : rem ≤ fuel)
    (ho : off < sb.blockBytes)
    (hdev : ∀ b, b * sb.blockBytes < cur * sb.blockBytes + off + rem → OnDev sb b) :
    rwSpanningLoop false fuel sb data ptr rem cur off =
      (sb, memcpy data ptr sb.dev.data (cur * sb.blockBytes + off) rem) := by
  induction fuel generalizing data ptr rem cur off with
  | zero =>
    obtain rfl : rem = 0 := by omega
    rw [memcpy_zero]
    rfl
  | succ fuel ih =>
    by_cases h0 : rem = 0
    · subst h0
      rw [memcpy_zero]
      rfl
    · simp only [rwSpanningLoop, if_neg h0, Bool.false_eq_true, if_false]
      rw [ih (by omega) g.pos fun b hb => hdev b (span_next ho h0 hb)]
      have hcur : OnDev sb cur := hdev cur (by omega)
      have hfirst : memcpy data ptr (diskReadBlock sb cur sb.uninit) off
          (min (sb.blockBytes - off) rem) = memcpy data ptr sb.dev.data
            (cur * sb.blockBytes + off) (min (sb.blockBytes - off) rem) := by
        refine memcpy_congr fun j hj => ?_
        rw [diskReadBlock_apply g hcur _ (by omega), Nat.add_assoc]
      rw [hfirst]
      rcases span_part rem cur ho with ⟨h1, h2⟩ | h1
      · rw [h1, h2, memcpy_zero]
      · rw [h1, memcpy_append, Nat.add_sub_cancel' (Nat.min_le_right ..)]

theorem rwSpanningLoop_write (g : WholeSectors sb) (fuel : ℕ) (hf : rem ≤ fuel)
    (ho : off < sb.blockBytes)
    (hdev : ∀ b, b * sb.blockBytes < cur * sb.blockBytes + off + rem → OnDev sb b) :
    rwSpanningLoop true fuel sb data ptr rem cur off =
      (sb.setData (memcpy sb.dev.data (cur * sb.blockBytes + off) data ptr rem), data) := by
  induction fuel generalizing sb ptr rem cur off with
  | zero =>
    obtain rfl : rem = 0 := by omega
    rw [memcpy_zero]
    rfl
  | succ fuel ih =>
    by_cases h0 : rem = 0
    · subst h0
      rw [memcpy_zero]
      rfl
    · simp only [rwSpanningLoop, if_neg h0, if_true]
      have hcur : OnDev sb cur := hdev cur (by omega)
      rw [diskWriteBlock_part g hcur (by omega) fun hpart o hob => by
        rw [if_pos (by omega), diskReadBlock_apply g hcur _ hob]]
      have rest := fun d ptr' => @ih (sb.setData d) ptr' (rem - min (sb.blockBytes - off) rem)
        (cur + 1) 0 (g.setData d) (by omega) g.pos fun b hb => hdev b (span_next ho h0 hb)
      rw [rest]
      simp only [MyfsSuperBlock.setData]
      rcases span_part rem cur ho with ⟨h1, h2⟩ | h1
      · rw [h1, h2, memcpy_zero]
      · rw [h1, memcpy_append, Nat.add_sub_cancel' (Nat.min_le_right ..)]

end

/-! ## Bitmaps -/

section
variable (g : WholeSectors sb) {start n : ℕ}
include g

theorem writeBitmapLoop_eq (buf : Buf) (h : ∀ k < n, OnDev sb (start + k)) :
    writeBitmapLoop start buf n sb =
      sb.setData (memcpy sb.dev.data (start * sb.blockBytes) buf 0 (n * sb.blockBytes)) := by
  induction n with
  | zero =>
    rw [Nat.zero_mul, memcpy_zero]
    rfl
  | succ n ih =>
    simp only [writeBitmapLoop]
    rw [ih fun k hk => h k (by omega)]
    rw [diskWriteBlock_eq (g.setData _) ((h n (by omega)).setData _), Nat.succ_mul,
      ← memcpy_append _ _ _ _ (n * sb.blockBytes)]
    simp only [MyfsSuperBlock.setData, Nat.add_mul, Nat.zero_add]
    congr 2
    exact memcpy_congr fun j _ => by simp only [Nat.zero_add]

theorem readBitmapLoop_eq (buf : Buf) (h : ∀ k < n, OnDev sb (start + k)) :
    readBitmapLoop sb start n buf =
      memcpy buf 0 sb.dev.data (start * sb.blockBytes) (n * sb.blockBytes) := by
  induction n with
  | zero =>
    rw [Nat.zero_mul, memcpy_zero]
    rfl
  | succ n ih =>
    simp only [readBitmapLoop]
    rw [ih fun k hk => h k (by omega), Nat.succ_mul, ← memcpy_append, Nat.zero_add,
      ← Nat.add_mul]
    refine memcpy_congr fun j hj => ?_
    rw [Nat.zero_add, diskReadBlock_apply g (h n (by omega)) _ hj]

/-- The blocks of a bitmap of `n` bytes lie on the device. -/
def BitmapOnDev (sb : MyfsSuperBlock) (start n : ℕ) : Prop :=
  ∀ k, k * sb.blockBytes < n → OnDev sb (start + k)

omit g in
theorem BitmapOnDev.full (h : BitmapOnDev sb start n) (k : ℕ) (hk : k < n / sb.blockBytes) :
    OnDev sb (start + k) := by
  refine h k ?_
  have h1 := Nat.mul_le_mul_right sb.blockBytes (Nat.succ_le_of_lt hk)
  have h2 := Nat.div_mul_le_self n sb.blockBytes
  have h3 : 0 < sb.blockBytes := Nat.pos_of_ne_zero fun e => by simp [e] at hk
  rw [Nat.succ_mul] at h1
  omega

theorem diskWriteBitmap_eq (buf : Buf) (h : BitmapOnDev sb start n) :
    ∃ d, diskWriteBitmap sb start buf n = sb.setData d ∧
      ∀ j < n, d (start * sb.blockBytes + j) = buf j := by
  have hdm := Nat.div_add_mod' n sb.blockBytes
  simp only [diskWriteBitmap]
  rw [writeBitmapLoop_eq g buf h.full]
  by_cases h0 : 0 < n % sb.blockBytes
  · rw [if_pos h0, diskWriteBlock_eq (g.setData _) ((h _ (by omega)).setData _)]
    refine ⟨_, rfl, fun j hj => ?_⟩
    simp only [MyfsSuperBlock.setData, Nat.add_mul]
    have hm := Nat.mod_lt n g.pos
    by_cases h1 : j < n / sb.blockBytes * sb.blockBytes
    · rw [memcpy_out (by omega), memcpy_in (by omega) (by omega)]
      congr 1
      omega
    · rw [memcpy_in (by omega) (by omega), memcpy_in (by omega) (by omega)]
      congr 1
      omega
  · rw [if_neg h0]
    refine ⟨_, rfl, fun j hj => ?_⟩
    rw [memcpy_in (by omega) (by omega)]
    congr 1
    omega

theorem diskReadBitmap_apply (buf : Buf) (h : BitmapOnDev sb start n) {j : ℕ} (hj : j < n) :
    diskReadBitmap sb start buf n j = sb.dev.data (start * sb.blockBytes + j) := by
  have hdm := Nat.div_add_mod' n sb.blockBytes
  have hm := Nat.mod_lt n g.pos
  simp only [diskReadBitmap]
  rw [readBitmapLoop_eq g buf h.full]
  by_cases h1 : j < n / sb.blockBytes * sb.blockBytes
  · split_ifs
    · rw [memcpy_out (by omega), memcpy_in (by omega) (by omega), Nat.sub_zero]
    · rw [memcpy_in (by omega) (by omega), Nat.sub_zero]
  · rw [if_pos (by omega), memcpy_in (by omega) (by omega),
      diskReadBlock_apply g (h _ (by omega)) _ (by omega), Nat.add_mul]
    congr 1
    omega

/-- **A bitmap that was written is read back.** -/
theorem diskReadBitmap_diskWriteBitmap (buf old : Buf) (h : BitmapOnDev sb start n) {j : ℕ}
    (hj : j < n) :
    diskReadBitmap (diskWriteBitmap sb start buf n) start old n j = buf j := by
  obtain ⟨d, e, hd⟩ := diskWriteBitmap_eq g buf h
  rw [e, diskReadBitmap_apply (g.setData d) old h hj]
  exact hd j hj

end

end Kabanos
