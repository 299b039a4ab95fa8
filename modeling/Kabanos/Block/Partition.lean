/-
  Partitions: `drivers/block/partition.c`, and the block accesses that MyFS makes on a
  partition.

  `part_read` and `part_write` compare `lba + count` with the size of the partition in
  32-bit arithmetic.  A request that passes the check without a wrap-around stays inside
  the partition, and the partition is then the device that the model of MyFS works on
  (`partRead_window`, `partWrite_window`); a request whose sum wraps around passes the
  check as well, and leaves the partition.
-/
import Kabanos.Lib.Runs
import Kabanos.Myfs.Disk

namespace Kabanos

/-! ## The parent device -/

/-- The driver of a physical disk.  For a request of `count` sectors from `lba` on it moves
    the first `moved lba count` of them and returns `status lba count`. -/
structure Driver where
  status : ℕ → ℕ → Int
  moved : ℕ → ℕ → ℕ
  moved_le : ∀ lba count, moved lba count ≤ count

/-- A physical disk, with the sectors that have been accessed. -/
structure ParentDev extends Driver where
  data : Buf
  touched : List ℕ

/-- The results of a device operation: the disk afterwards, the buffer and the status. -/
structure IoResult where
  dev : ParentDev
  buf : Buf
  status : Int

def ParentDev.readSectors (d : ParentDev) (lba count : ℕ) (buf : Buf) : IoResult where
  dev := { d with touched := List.range' lba (d.moved lba count) ++ d.touched }
  buf := memcpy buf 0 d.data (lba * 512) (d.moved lba count * 512)
  status := d.status lba count

def ParentDev.writeSectors (d : ParentDev) (lba count : ℕ) (buf : Buf) : IoResult where
  dev := { d with
    data := memcpy d.data (lba * 512) buf 0 (d.moved lba count * 512)
    touched := List.range' lba (d.moved lba count) ++ d.touched }
  buf := buf
  status := d.status lba count

/-! ## Partitions -/

structure PartitionInfo where
  startLba : ℕ
  sectorCount : ℕ
  partIndex : ℕ
  startLba_lt : startLba < 2 ^ 32
  sectorCount_lt : sectorCount < 2 ^ 32

abbrev einval : Int := -22

def partRead (info : PartitionInfo) (d : ParentDev) (lba count : ℕ) (buf : Buf) : IoResult :=
  if info.sectorCount < (lba + count) % 2 ^ 32 then ⟨d, buf, einval⟩
  else d.readSectors ((info.startLba + lba) % 2 ^ 32) count buf

def partWrite (info : PartitionInfo) (d : ParentDev) (lba count : ℕ) (buf : Buf) : IoResult :=
  if info.sectorCount < (lba + count) % 2 ^ 32 then ⟨d, buf, einval⟩
  else d.writeSectors ((info.startLba + lba) % 2 ^ 32) count buf

/-- The entry of slot `i` of the partition table in the boot sector `mbr`. -/
def mbrPartition (mbr : Buf) (i : ℕ) : PartitionInfo where
  startLba := getU32 mbr (446 + 16 * i + 8)
  sectorCount := getU32 mbr (446 + 16 * i + 12)
  partIndex := i + 1
  startLba_lt := getU32_lt _ _
  sectorCount_lt := getU32_lt _ _

/-- `partition_probe`: the partitions it registers; `stack` is what the buffer for the boot
    sector holds before. -/
def partitionProbe (d : ParentDev) (stack : Buf) : List PartitionInfo :=
  let r := d.readSectors 0 1 stack
  if r.status < 0 then []
  else if (r.buf 510).toNat + 256 * (r.buf 511).toNat ≠ 0xAA55 then []
  else ((List.range 4).filter fun i => r.buf (446 + 16 * i + 4) ≠ 0).map (mbrPartition r.buf)

/-- The numbers of the registered partitions increase, so no two of them have the same name. -/
theorem partitionProbe_partIndex (d : ParentDev) (stack : Buf) :
    ((partitionProbe d stack).map PartitionInfo.partIndex).Pairwise (· < ·) := by
  simp only [partitionProbe]
  split_ifs
  · exact .nil
  · exact .nil
  · rw [List.map_map, List.pairwise_map]
    exact (List.pairwise_lt_range.filter _).imp Nat.succ_lt_succ

/-- `disk_read_block` on a partition; `blockSectors` comes from the superblock on the disk. -/
def partReadBlock (info : PartitionInfo) (d : ParentDev) (blockSectors blockLba : ℕ) (buf : Buf) :
    IoResult :=
  partRead info d (blockLba * blockSectors % 2 ^ 32) blockSectors buf

/-- `disk_write_block` on a partition -/
def partWriteBlock (info : PartitionInfo) (d : ParentDev) (blockSectors blockLba : ℕ) (buf : Buf) :
    IoResult :=
  partWrite info d (blockLba * blockSectors % 2 ^ 32) blockSectors buf

/-! ## Confinement -/

/-- The operation failed without touching the parent, or it accessed sectors of the
    partition only. -/
def Confined (info : PartitionInfo) (d : ParentDev) (r : IoResult) : Prop :=
  (r.status < 0 ∧ r.dev = d) ∨
    ∃ t, r.dev.touched = t ++ d.touched ∧
      (∀ s ∈ t, info.startLba ≤ s ∧ s < info.startLba + info.sectorCount) ∧
      ∀ j, j < info.startLba * 512 ∨ (info.startLba + info.sectorCount) * 512 ≤ j →
        r.dev.data j = d.data j

/-- The sum that the check compares is the real one, or it is large enough to be refused
    all the same. -/
def Unwrapped (info : PartitionInfo) (lba count : ℕ) : Prop :=
  count = 0 ∨ lba + count < 2 ^ 32 ∨ info.sectorCount + 2 ^ 32 < lba + count

instance (info : PartitionInfo) (lba count : ℕ) : Decidable (Unwrapped info lba count) :=
  inferInstanceAs (Decidable (_ ∨ _ ∨ _))

section
variable {info : PartitionInfo} {lba count n : ℕ}

section
variable (h : Unwrapped info lba count) (hl : lba < 2 ^ 32) (hc : count < 2 ^ 32)
  (hp : info.startLba + info.sectorCount ≤ 2 ^ 32)
include h hl hc hp

theorem Unwrapped.inside (ha : ¬ info.sectorCount < (lba + count) % 2 ^ 32) (hn : n ≤ count)
    (hn0 : 0 < n) :
    (info.startLba + lba) % 2 ^ 32 = info.startLba + lba ∧ lba + n ≤ info.sectorCount := by
  have hs := info.sectorCount_lt
  rcases h with h | h | h
  · omega
  · rw [Nat.mod_eq_of_lt h] at ha
    refine ⟨Nat.mod_eq_of_lt (by omega), by omega⟩
  · -- such a sum would be refused: it is less than two times `2 ^ 32`
    omega

theorem partRead_confined (d : ParentDev) (buf : Buf) :
    Confined info d (partRead info d lba count buf) := by
  unfold partRead
  split_ifs with ha
  · exact Or.inl ⟨show einval < 0 by decide, rfl⟩
  refine Or.inr ⟨_, rfl, fun s hs => ?_, fun j _ => rfl⟩
  rw [List.mem_range'_1] at hs
  obtain ⟨h1, h2⟩ :=
    h.inside hl hc hp ha (d.moved_le ((info.startLba + lba) % 2 ^ 32) count) (by omega)
  omega

theorem partWrite_confined (d : ParentDev) (buf : Buf) :
    Confined info d (partWrite info d lba count buf) := by
  unfold partWrite
  split_ifs with ha
  · exact Or.inl ⟨show einval < 0 by decide, rfl⟩
  refine Or.inr ⟨_, rfl, fun s hs => ?_, fun j hj => ?_⟩
  · rw [List.mem_range'_1] at hs
    obtain ⟨h1, h2⟩ :=
      h.inside hl hc hp ha (d.moved_le ((info.startLba + lba) % 2 ^ 32) count) (by omega)
    omega
  · simp only [ParentDev.writeSectors]
    rcases Nat.eq_zero_or_pos (d.moved ((info.startLba + lba) % 2 ^ 32) count) with h0 | h0
    · rw [h0, Nat.zero_mul]
      refine memcpy_out ?_
      rw [Nat.add_zero]
      exact lt_or_ge _ _
    · obtain ⟨h1, h2⟩ := h.inside hl hc hp ha (d.moved_le _ _) h0
      rw [h1] at h2 ⊢
      refine memcpy_out (hj.imp (fun hj => ?_) fun hj => ?_) <;> linarith

end

/-- A driver that moves all it is asked for. -/
def obedient : Driver where
  status _ _ := 0
  moved _ count := count
  moved_le _ _ := le_rfl

theorem partRead_escapes (h : ¬ Unwrapped info lba count) (hl : lba < 2 ^ 32) (hc : count < 2 ^ 32)
    (hp : info.startLba + info.sectorCount ≤ 2 ^ 32) (data buf : Buf) :
    ¬ Confined info ⟨obedient, data, []⟩ (partRead info ⟨obedient, data, []⟩ lba count buf) := by
  have h1 := info.startLba_lt
  have h2 := info.sectorCount_lt
  simp only [Unwrapped, not_or, not_lt] at h
  unfold partRead
  rw [if_neg (by omega)]
  rintro (⟨h3, -⟩ | ⟨t, h3, h4, -⟩)
  · exact absurd h3 (lt_irrefl (0 : Int))
  · -- the first and the last sector of the request
    simp only [ParentDev.readSectors, List.append_nil] at h3
    have first := h4 ((info.startLba + lba) % 2 ^ 32)
      (by rw [← h3, List.mem_range'_1]; exact ⟨le_rfl, Nat.lt_add_of_pos_right (by
        show 0 < count; omega)⟩)
    have last := h4 ((info.startLba + lba) % 2 ^ 32 + (count - 1))
      (by rw [← h3, List.mem_range'_1]; exact ⟨Nat.le_add_right _ _, by
        show _ < _ + count; omega⟩)
    omega

/-- **What a request of a partition accesses**, for requests by sector and by block. -/
theorem partition_confined_iff (info : PartitionInfo)
    (hp : info.startLba + info.sectorCount ≤ 2 ^ 32) :
    (∀ lba count, lba < 2 ^ 32 → count < 2 ^ 32 →
      ((∀ d buf, Confined info d (partRead info d lba count buf) ∧
        Confined info d (partWrite info d lba count buf)) ↔ Unwrapped info lba count)) ∧
    ∀ blockSectors blockLba, blockSectors < 2 ^ 32 →
      ((∀ d buf, Confined info d (partReadBlock info d blockSectors blockLba buf) ∧
        Confined info d (partWriteBlock info d blockSectors blockLba buf)) ↔
        Unwrapped info (blockLba * blockSectors % 2 ^ 32) blockSectors) := by
  have main : ∀ lba count, lba < 2 ^ 32 → count < 2 ^ 32 →
      ((∀ d buf, Confined info d (partRead info d lba count buf) ∧
        Confined info d (partWrite info d lba count buf)) ↔ Unwrapped info lba count) := by
    intro lba count hl hc
    refine ⟨fun h => ?_, fun h d buf =>
      ⟨partRead_confined h hl hc hp d buf, partWrite_confined h hl hc hp d buf⟩⟩
    by_contra hu
    exact partRead_escapes hu hl hc hp (fun _ => 0) (fun _ => 0) (h _ _).1
  exact ⟨main, fun blockSectors blockLba hn =>
    main _ blockSectors (Nat.mod_lt _ (by decide)) hn⟩

/-- A partition of 4096 sectors from sector 2048 on. -/
def demoPartition : PartitionInfo := ⟨2048, 4096, 1, by decide, by decide⟩

theorem partition_confined_demo :
    (∀ d buf, Confined demoPartition d (partReadBlock demoPartition d 4 7 buf) ∧
      Confined demoPartition d (partWriteBlock demoPartition d 4 7 buf)) ∧
    ∀ d buf, Confined demoPartition d (partRead demoPartition d 4090 10 buf) ∧
      Confined demoPartition d (partWrite demoPartition d 4090 10 buf) :=
  have h := partition_confined_iff demoPartition (by decide)
  ⟨(h.2 4 7 (by decide)).2 (by decide), (h.1 4090 10 (by decide) (by decide)).2 (by decide)⟩

/-- Block `0xFFFFFFFF`, a block number that a damaged inode can hold: the last four
    sectors before the partition are overwritten. -/
theorem block_before_partition :
    (partWriteBlock demoPartition ⟨obedient, fun _ => 0, []⟩ 4 0xFFFFFFFF fun _ => 1).status = 0 ∧
    (partWriteBlock demoPartition ⟨obedient, fun _ => 0, []⟩ 4 0xFFFFFFFF fun _ => 1).dev.touched =
      [2044, 2045, 2046, 2047] ∧
    (partWriteBlock demoPartition ⟨obedient, fun _ => 0, []⟩ 4 0xFFFFFFFF fun _ => 1).dev.data
      (2044 * 512) = 1 := by
  decide +kernel

end

/-! ## Disks of their own -/

/-- The disk that a partition stands for, where the whole disk holds `data`. -/
def PartitionInfo.window (info : PartitionInfo) (data : Buf) : BlkDev where
  sectors := info.sectorCount
  data j := if j < info.sectorCount * 512 then data (info.startLba * 512 + j) else 0

def windows {ι : Type} (info : ι → PartitionInfo) (data : Buf) (a : ι) : BlkDev :=
  (info a).window data

/-- A request to partition `part`, without a wrap-around. -/
inductive PartCall (ι : Type)
  | read (part : ι) (lba count : ℕ) (buf : Buf) (fits : lba + count < 2 ^ 32)
  | write (part : ι) (lba count : ℕ) (buf : Buf) (fits : lba + count < 2 ^ 32)

section
variable {ι : Type} (D : Driver) (info : ι → PartitionInfo)

/-- The request, on the disk that the partitions share. -/
def PartCall.run : PartCall ι → StateM Buf Buf
  | .read a lba count buf _ => fun data =>
    let r := partRead (info a) ⟨D, data, []⟩ lba count buf
    (r.buf, r.dev.data)
  | .write a lba count buf _ => fun data =>
    let r := partWrite (info a) ⟨D, data, []⟩ lba count buf
    (r.buf, r.dev.data)

/-- The request, where each partition is a disk of its own. -/
def PartCall.apart [DecidableEq ι] : PartCall ι → StateM (ι → BlkDev) Buf
  | .read a lba count buf _ => fun disks => ((disks a).readSectors lba count buf, disks)
  | .write a lba count buf _ => fun disks =>
    (buf, Function.update disks a ((disks a).writeSectors lba count buf))

/-- The driver of the disk moves all sectors of a request inside the partition. -/
def Serves (D : Driver) (info : PartitionInfo) (lba count : ℕ) : Prop :=
  lba + count ≤ info.sectorCount → D.moved (info.startLba + lba) count = count

def PartCall.Served : PartCall ι → Prop
  | .read a lba count _ _ | .write a lba count _ _ => Serves D (info a) lba count

end

section
variable {D : Driver} {info info' : PartitionInfo} {lba count : ℕ} {data buf : Buf}
  (hp : info.startLba + info.sectorCount < 2 ^ 32) (hf : lba + count < 2 ^ 32)
  (hD : Serves D info lba count)
include hp hf hD

theorem partRead_window : (partRead info ⟨D, data, []⟩ lba count buf).buf =
    (info.window data).readSectors lba count buf := by
  rw [partRead, BlkDev.readSectors, Nat.mod_eq_of_lt hf]
  split_ifs with h1 h2 h2
  · exact absurd h2 (not_le.2 h1)
  · rfl
  · rw [Nat.mod_eq_of_lt (a := info.startLba + lba) (by omega)]
    simp only [ParentDev.readSectors, hD h2]
    funext j
    by_cases hj : j < count * 512
    · rw [memcpy_in (Nat.zero_le j) (by omega), memcpy_in (Nat.zero_le j) (by omega)]
      refine Eq.trans (congrArg data ?_) (if_pos ?_).symm <;> omega
    · rw [memcpy_out (by omega), memcpy_out (by omega)]
  · exact absurd (not_lt.1 h1) h2

theorem partWrite_data : (partWrite info ⟨D, data, []⟩ lba count buf).dev.data =
    if lba + count ≤ info.sectorCount then
      memcpy data ((info.startLba + lba) * 512) buf 0 (count * 512) else data := by
  rw [partWrite, Nat.mod_eq_of_lt hf]
  split_ifs with h1 h2 h2
  · omega
  · rfl
  · rw [Nat.mod_eq_of_lt (a := info.startLba + lba) (by omega)]
    simp only [ParentDev.writeSectors, hD h2]
  · omega

theorem partWrite_window : info.window (partWrite info ⟨D, data, []⟩ lba count buf).dev.data =
    (info.window data).writeSectors lba count buf := by
  rw [partWrite_data hp hf hD]
  unfold BlkDev.writeSectors
  split_ifs with h1 h2 h2
  · refine congrArg (BlkDev.mk _) (funext fun j => ?_)
    by_cases hj : lba * 512 ≤ j ∧ j < lba * 512 + count * 512
    · rw [memcpy_in hj.1 hj.2, memcpy_in (by omega) (by omega), if_pos (by omega)]
      congr 1
      omega
    · rw [memcpy_out (by omega), memcpy_out (by omega)]
      rfl
  · exact absurd h1 h2
  · exact absurd h2 h1
  · rfl

theorem partWrite_other (hd : info.startLba + info.sectorCount ≤ info'.startLba ∨
      info'.startLba + info'.sectorCount ≤ info.startLba) :
    info'.window (partWrite info ⟨D, data, []⟩ lba count buf).dev.data = info'.window data := by
  rw [partWrite_data hp hf hD]
  split_ifs with hle
  · refine congrArg (BlkDev.mk _) (funext fun j => ?_)
    split_ifs with hj
    · exact memcpy_out (by omega)
    · rfl
  · rfl

end

/-- **The partitions of a disk are disks of their own**, whatever the order in which requests
    are made to them and whichever requests outside the partition are among them: every request
    has the result it has on the disk of its partition, and changes that disk only. -/
theorem partitions_run_apart {ι : Type} [DecidableEq ι] {D : Driver} {info : ι → PartitionInfo}
    (hp : ∀ a, (info a).startLba + (info a).sectorCount < 2 ^ 32)
    (hd : ∀ a b, a ≠ b → (info a).startLba + (info a).sectorCount ≤ (info b).startLba ∨
      (info b).startLba + (info b).sectorCount ≤ (info a).startLba)
    {cs : List (PartCall ι)} (hD : ∀ c ∈ cs, c.Served D info) (data : Buf) :
    (cs.mapM PartCall.apart).run (windows info data) =
      ((cs.mapM (PartCall.run D info)).run data).map id (windows info) := by
  refine mapM_simulates (fun c hc data => ?_) data
  have hs := hD c hc
  cases c with
  | read a lba count buf hf =>
    refine Prod.ext (partRead_window (hp a) hf hs).symm (funext fun b => ?_)
    show (info b).window data = (info b).window (partRead ..).dev.data
    unfold partRead
    split_ifs <;> rfl
  | write a lba count buf hf =>
    refine Prod.ext ?_ (funext fun b => ?_)
    · show buf = (partWrite ..).buf
      unfold partWrite
      split_ifs <;> rfl
    · show Function.update (windows info data) a (((info a).window data).writeSectors lba count buf)
        b = (info b).window (partWrite ..).dev.data
      by_cases hb : b = a
      · subst hb
        rw [Function.update_self, partWrite_window (hp b) hf hs]
      · rw [Function.update_of_ne hb, partWrite_other (hp a) hf hs (hd a b (Ne.symm hb))]
        rfl

/-- Two partitions next to each other. -/
def demoTable : Bool → PartitionInfo
  | false => demoPartition
  | true => ⟨6144, 4096, 2, by decide, by decide⟩

/-- A driver that refuses empty requests and those of more than 256 sectors, as `ata.c` does, on a
    disk that is ready. -/
def ataReady : Driver where
  status _ count := if count = 0 ∨ 256 < count then -1 else 0
  moved _ count := if count = 0 ∨ 256 < count then 0 else count
  moved_le _ count := by split_ifs <;> omega

/-- The last sector of the first partition is written, the one behind it read, and more is written
    than the second partition has room for. -/
def tableCalls : List (PartCall Bool) :=
  [.write false 4095 1 (fun _ => 7) (by decide), .read true 0 1 (fun _ => 9) (by decide),
    .write true 4000 257 (fun _ => 8) (by decide)]

theorem partitions_run_apart_two :
    (∀ c ∈ tableCalls, c.Served ataReady demoTable) ∧
      (tableCalls.mapM PartCall.apart).run (windows demoTable fun _ => 0) =
        ((tableCalls.mapM (PartCall.run ataReady demoTable)).run fun _ => 0).map id
          (windows demoTable) := by
  have hs : ∀ c ∈ tableCalls, c.Served ataReady demoTable := by
    simp [tableCalls, PartCall.Served, Serves, ataReady, demoTable, demoPartition]
  exact ⟨hs, partitions_run_apart (by decide) (by decide) hs _⟩

end Kabanos
