/-
  Reading a file of a FAT12 volume: calls of `fat_read` return the file piece by piece.

  The file is a chain of clusters.  Between two calls the buffer holds the sector of the current
  position, unless the chain ends there.
-/
import Kabanos.Fat.Fat

namespace Kabanos

/-! ## Files as bytes -/

/-- The field `sectors_per_cluster` of a volume is a byte, and not zero. -/
structure FatVolume.Fat12 (v : FatVolume) : Prop where
  pos : 0 < v.sectorsPerCluster
  lt : v.sectorsPerCluster < 256

/-- Clusters that are linked in the table, and the entry of the last one ends the chain. -/
structure ClusterChain (v : FatVolume) (cs : List ℕ) : Prop where
  valid : ∀ c ∈ cs, 2 ≤ c ∧ c < 0xFF8
  next : ∀ i, i + 1 < cs.length → fatNextCluster v (cs.getD i 0) = cs.getD (i + 1) 0
  last : ∀ i, i + 1 = cs.length → 0xFF8 ≤ fatNextCluster v (cs.getD i 0)

/-- The address of the `k`-th sector of a chain. -/
def chainLba (v : FatVolume) (cs : List ℕ) (k : ℕ) : ℕ :=
  (fatClusterToLba v (cs.getD (k / v.sectorsPerCluster) 0) + k % v.sectorsPerCluster) % 2 ^ 32

/-- The sectors of the chain can be read. -/
def Readable (v : FatVolume) (cs : List ℕ) : Prop :=
  ∀ k < v.sectorsPerCluster * cs.length, (v.sector (chainLba v cs k)).isSome

/-- The bytes of the clusters of a chain, one after the other. -/
def chainByte (v : FatVolume) (cs : List ℕ) (i : ℕ) : UInt8 :=
  (v.sector (chainLba v cs (i / 512))).elim 0 fun b => b (i % 512)

/-- The `m` bytes from `pos` on. -/
def slice (f : ℕ → UInt8) (pos m : ℕ) : List UInt8 := (List.range m).map fun i => f (pos + i)

/-- The pieces that reads of the given lengths should return, from `pos` on. -/
def slices (f : ℕ → UInt8) (size : ℕ) : ℕ → List ℕ → List (List UInt8)
  | _, [] => []
  | pos, n :: counts =>
    slice f pos (min n (size - pos)) :: slices f size (pos + min n (size - pos)) counts

/-- Calls of `fat_read`, one after the other. -/
def FatData.readAll (d : FatData) (handle : ℤ) : List ℕ → List (List UInt8)
  | [] => []
  | n :: counts =>
    let (d, out) := d.read handle n
    out :: d.readAll handle counts

/-- The file is at position `pos`: the buffer holds the sector there, if there is one. -/
structure FileAt (v : FatVolume) (cs : List ℕ) (size : ℕ) (fd : FatFileData) (pos : ℕ) : Prop where
  handle : fd.file.handle ≠ rootDirectoryHandle
  regular : fd.file.isDirectory = false
  position : fd.file.position = pos
  size_eq : fd.file.size = size
  le : pos ≤ size
  loaded : pos < 512 * (v.sectorsPerCluster * cs.length) →
    (∀ j < 512, fd.buffer j = chainByte v cs (pos / 512 * 512 + j)) ∧
      fd.currentCluster = cs.getD (pos / 512 / v.sectorsPerCluster) 0 ∧
      fd.currentSectorInCluster = pos / 512 % v.sectorsPerCluster

section
variable {v : FatVolume} {cs : List ℕ} {size pos m k : ℕ} {fd : FatFileData}

theorem slice_add (f : ℕ → UInt8) (pos a b : ℕ) :
    slice f pos (a + b) = slice f pos a ++ slice f (pos + a) b := by
  simp [slice, List.range_add, Nat.add_assoc, Function.comp_def]

/-! ## The next sector -/

theorem fatLoadSector_chain (fd : FatFileData) (hr : Readable v cs)
    (hk : k < v.sectorsPerCluster * cs.length) :
    ∃ buffer, fatLoadSector v fd (chainLba v cs k) = ({ fd with buffer := buffer }, true) ∧
      ∀ j < 512, buffer j = chainByte v cs (k * 512 + j) := by
  obtain ⟨b, hb⟩ := Option.isSome_iff_exists.1 (hr k hk)
  refine ⟨memcpy fd.buffer 0 b 0 512, ?_, fun j hj => ?_⟩
  · simp only [fatLoadSector, partitionReadSector, hb]
  · rw [chainByte, show (k * 512 + j) / 512 = k by omega, show (k * 512 + j) % 512 = j by omega, hb,
      memcpy_in (Nat.zero_le j) (by omega)]
    simp

theorem succ_div_mod {s : ℕ} (hs : 0 < s) (k : ℕ) :
    (k + 1) / s = k / s + (k % s + 1) / s ∧ (k + 1) % s = (k % s + 1) % s := by
  have e : k + 1 = s * (k / s) + (k % s + 1) := by rw [← Nat.add_assoc, Nat.div_add_mod]
  constructor
  · conv_lhs => rw [e, Nat.mul_add_div hs]
  · conv_lhs => rw [e, Nat.mul_add_mod]

/-- The cluster and the sector after the `k`-th sector of the chain. -/
theorem fatNextSector_eq (hv : v.Fat12)
    (h1 : fd.currentCluster = cs.getD (k / v.sectorsPerCluster) 0)
    (h2 : fd.currentSectorInCluster = k % v.sectorsPerCluster) :
    fatNextSector v fd = { fd with
      currentCluster := if (k + 1) % v.sectorsPerCluster = 0 then
        fatNextCluster v (cs.getD (k / v.sectorsPerCluster) 0) else
        cs.getD ((k + 1) / v.sectorsPerCluster) 0
      currentSectorInCluster := (k + 1) % v.sectorsPerCluster } := by
  have hlt := Nat.mod_lt k hv.pos
  have hspc := hv.lt
  obtain ⟨hdiv, hmod⟩ := succ_div_mod hv.pos k
  rw [fatNextSector, h2, Nat.mod_eq_of_lt (by omega : k % v.sectorsPerCluster + 1 < 2 ^ 32)]
  by_cases h : v.sectorsPerCluster ≤ k % v.sectorsPerCluster + 1
  · -- the last sector of its cluster
    have e : k % v.sectorsPerCluster + 1 = v.sectorsPerCluster := by omega
    rw [e, Nat.mod_self] at hmod
    rw [if_pos h, if_pos hmod, hmod, h1]
  · rw [Nat.mod_eq_of_lt (not_le.1 h)] at hmod
    rw [Nat.div_eq_of_lt (not_le.1 h), Nat.add_zero (k / _)] at hdiv
    rw [if_neg h, if_neg (by omega), hmod, hdiv, ← h1]

theorem ClusterChain.next_inside (hv : v.Fat12) (hc : ClusterChain v cs)
    (hk : k + 1 < v.sectorsPerCluster * cs.length) :
    (if (k + 1) % v.sectorsPerCluster = 0 then
      fatNextCluster v (cs.getD (k / v.sectorsPerCluster) 0) else
      cs.getD ((k + 1) / v.sectorsPerCluster) 0) = cs.getD ((k + 1) / v.sectorsPerCluster) 0 ∧
    cs.getD ((k + 1) / v.sectorsPerCluster) 0 < 0xFF8 := by
  have hlt : (k + 1) / v.sectorsPerCluster < cs.length := by
    rwa [Nat.div_lt_iff_lt_mul hv.pos, Nat.mul_comm]
  constructor
  · split_ifs with h
    · have e : (k + 1) / v.sectorsPerCluster = k / v.sectorsPerCluster + 1 :=
        Nat.succ_div_of_dvd (Nat.dvd_of_mod_eq_zero h)
      rw [e] at hlt ⊢
      exact hc.next _ hlt
    · rfl
  · rw [List.getD_eq_getElem _ _ hlt]
    exact (hc.valid _ (List.getElem_mem hlt)).2

theorem ClusterChain.next_end (hv : v.Fat12) (hc : ClusterChain v cs)
    (hk : k + 1 = v.sectorsPerCluster * cs.length) :
    0xFF8 ≤ if (k + 1) % v.sectorsPerCluster = 0 then
      fatNextCluster v (cs.getD (k / v.sectorsPerCluster) 0) else
      cs.getD ((k + 1) / v.sectorsPerCluster) 0 := by
  have h : (k + 1) % v.sectorsPerCluster = 0 := by rw [hk, Nat.mul_mod_right]
  rw [if_pos h]
  refine hc.last _ ?_
  rw [← Nat.succ_div_of_dvd (Nat.dvd_of_mod_eq_zero h), hk, Nat.mul_div_cancel_left _ hv.pos]

/-- **After the last byte of a sector** the next one is loaded, or the chain ends with the
    file. -/
theorem FileAt.advance (hv : v.Fat12) (hc : ClusterChain v cs) (hr : Readable v cs)
    (hsize : size ≤ 512 * (v.sectorsPerCluster * cs.length)) (hle : (k + 1) * 512 ≤ size)
    (hpos : fd.file.position = (k + 1) * 512) (h : fd.file.handle ≠ rootDirectoryHandle)
    (hreg : fd.file.isDirectory = false) (hsz : fd.file.size = size)
    (h1 : fd.currentCluster = cs.getD (k / v.sectorsPerCluster) 0)
    (h2 : fd.currentSectorInCluster = k % v.sectorsPerCluster) :
    FileAt v cs size (fatAdvance v fd).1 ((k + 1) * 512) ∧
      ((fatAdvance v fd).2 = false → (k + 1) * 512 = size) := by
  have hdiv : (k + 1) * 512 / 512 = k + 1 := Nat.mul_div_cancel _ (by decide)
  rw [fatAdvance, if_neg h, fatNextSector_eq hv h1 h2]
  rcases Nat.lt_or_ge (k + 1) (v.sectorsPerCluster * cs.length) with hk | hk
  · obtain ⟨e, hvalid⟩ := hc.next_inside hv hk
    rw [e, if_neg (not_le.2 hvalid)]
    obtain ⟨buffer, hload, hbuf⟩ := fatLoadSector_chain { fd with
      currentCluster := cs.getD ((k + 1) / v.sectorsPerCluster) 0
      currentSectorInCluster := (k + 1) % v.sectorsPerCluster } hr hk
    rw [chainLba] at hload
    simp only [hload]
    refine ⟨⟨h, hreg, hpos, hsz, hle, fun _ => ?_⟩, fun e => (by cases e)⟩
    rw [hdiv]
    exact ⟨hbuf, rfl, rfl⟩
  · have e : (k + 1) * 512 = size := by omega
    rw [if_pos (hc.next_end hv (by omega))]
    exact ⟨⟨h, hreg, hpos, hpos.trans e, hle, fun hlt => by omega⟩, fun _ => e⟩

/-- A step inside the sector in the buffer. -/
theorem FileAt.skip (h : FileAt v cs size fd pos) (hm : pos + m ≤ size) (h32 : size < 2 ^ 32)
    (hlt : m < 512 - pos % 512) : FileAt v cs size (fd.skip m) (pos + m) := by
  have hsector : (pos + m) / 512 = pos / 512 := by omega
  refine ⟨h.handle, h.regular, ?_, h.size_eq, hm, fun hin => ?_⟩
  · rw [FatFileData.skip, h.position]
    exact Nat.mod_eq_of_lt (by omega)
  · rw [hsector]
    exact h.loaded (by omega)

/-- A step to the end of the sector in the buffer. -/
theorem FileAt.skip_advance (hv : v.Fat12) (hc : ClusterChain v cs) (hr : Readable v cs)
    (hsize : size ≤ 512 * (v.sectorsPerCluster * cs.length)) (h32 : size < 2 ^ 32)
    (h : FileAt v cs size fd pos) (hm : pos + (512 - pos % 512) ≤ size) :
    FileAt v cs size (fatAdvance v (fd.skip (512 - pos % 512))).1 (pos + (512 - pos % 512)) ∧
      ((fatAdvance v (fd.skip (512 - pos % 512))).2 = false → pos + (512 - pos % 512) = size) := by
  have e : pos + (512 - pos % 512) = (pos / 512 + 1) * 512 := by omega
  obtain ⟨-, hcl, hsec⟩ := h.loaded (by omega)
  rw [e] at hm ⊢
  refine FileAt.advance hv hc hr hsize hm ?_ h.handle h.regular h.size_eq hcl hsec
  rw [FatFileData.skip, h.position, e]
  exact Nat.mod_eq_of_lt (by omega)

/-- The bytes that a round takes from the buffer. -/
theorem FileAt.bytes (h : FileAt v cs size fd pos)
    (hlt : pos < 512 * (v.sectorsPerCluster * cs.length)) (hm : m ≤ 512 - pos % 512) :
    ((List.range m).map fun i => fd.buffer (pos % 512 + i)) = slice (chainByte v cs) pos m := by
  refine List.map_congr_left fun i hi => ?_
  have := List.mem_range.1 hi
  rw [(h.loaded hlt).1 _ (by omega),
    show pos / 512 * 512 + (pos % 512 + i) = pos + i by omega]

/-- **The loop of `fat_read`** copies what is asked for. -/
theorem FileAt.readLoop (hv : v.Fat12) (hc : ClusterChain v cs) (hr : Readable v cs)
    (hsize : size ≤ 512 * (v.sectorsPerCluster * cs.length)) (h32 : size < 2 ^ 32) :
    ∀ n fd pos m out, FileAt v cs size fd pos → m ≤ n → pos + m ≤ size →
      ∃ fd', fatReadLoop v n fd m out = (fd', out ++ slice (chainByte v cs) pos m) ∧
        FileAt v cs size fd' (pos + m) := by
  intro n
  induction n with
  | zero =>
    intro fd pos m out h hm _
    obtain rfl := Nat.le_zero.1 hm
    exact ⟨fd, by simp [fatReadLoop, slice], h⟩
  | succ n ih =>
    intro fd pos m out h hm hms
    rcases Nat.eq_zero_or_pos m with rfl | hm0
    · exact ⟨fd, by simp [fatReadLoop, slice], h⟩
    rw [fatReadLoop, if_neg (by omega)]
    simp only [h.position, h.bytes (by omega) (min_le_right m (512 - pos % 512))]
    by_cases hlt : m < 512 - pos % 512
    · -- the sector has more bytes than are asked for
      rw [min_eq_left hlt.le, if_neg (by omega), Nat.sub_self]
      obtain ⟨fd', e, h'⟩ := ih (fd.skip m) (pos + m) 0 (out ++ slice (chainByte v cs) pos m)
        (h.skip hms h32 hlt) (Nat.zero_le n) hms
      exact ⟨fd', by rw [e]; simp [slice], h'⟩
    · obtain ⟨r, hr'⟩ := Nat.exists_eq_add_of_le (not_lt.1 hlt)
      obtain ⟨h', hend⟩ := h.skip_advance hv hc hr hsize h32 (by omega)
      have hslice : slice (chainByte v cs) pos m =
          slice (chainByte v cs) pos (512 - pos % 512) ++
            slice (chainByte v cs) (pos + (512 - pos % 512)) r := by
        rw [hr', slice_add]
      rw [min_eq_right (not_lt.1 hlt), if_pos rfl, hslice, ← List.append_assoc,
        show m - (512 - pos % 512) = r by omega,
        show pos + m = pos + (512 - pos % 512) + r by omega]
      split_ifs with hok
      · exact ih _ _ r _ h' (by omega) (by omega)
      · -- the end of the chain is the end of the file
        have := hend (Bool.eq_false_iff.2 hok)
        obtain rfl : r = 0 := by omega
        exact ⟨_, by simp [slice], h'⟩

/-- **`fat_read`** returns the next bytes of the file. -/
theorem FileAt.read (hv : v.Fat12) (hc : ClusterChain v cs) (hr : Readable v cs)
    (hsize : size ≤ 512 * (v.sectorsPerCluster * cs.length)) (h32 : size < 2 ^ 32)
    (h : FileAt v cs size fd pos) (n : ℕ) :
    ∃ fd', fatRead v fd n = (fd', slice (chainByte v cs) pos (min n (size - pos))) ∧
      FileAt v cs size fd' (pos + min n (size - pos)) := by
  have hle := h.le
  have e : (size + 2 ^ 32 - pos) % 2 ^ 32 = size - pos := by
    rw [show size + 2 ^ 32 - pos = size - pos + 2 ^ 32 by omega, Nat.add_mod_right]
    exact Nat.mod_eq_of_lt (by omega)
  rw [fatRead, if_pos (by rw [h.regular]; rfl), h.position, h.size_eq, e]
  exact FileAt.readLoop hv hc hr hsize h32 _ fd pos _ [] h le_rfl (by omega)

end

/-! ## Sequences of reads -/

section
variable {d : FatData} {cs counts : List ℕ} {size pos : ℕ} {entry : FatDirent} {h : ℤ}

@[simp] theorem fileData_setFileData (d : FatData) (h : ℤ) (fd : FatFileData) :
    (d.setFileData h fd).fileData h = fd := by
  unfold FatData.setFileData FatData.fileData
  split_ifs <;> simp

@[simp] theorem volume_setFileData (d : FatData) (h : ℤ) (fd : FatFileData) :
    (d.setFileData h fd).volume = d.volume := by
  unfold FatData.setFileData
  split_ifs <;> rfl

theorem FileAt.readAll (hv : d.volume.Fat12) (hc : ClusterChain d.volume cs)
    (hr : Readable d.volume cs)
    (hsize : size ≤ 512 * (d.volume.sectorsPerCluster * cs.length)) (h32 : size < 2 ^ 32)
    (hat : FileAt d.volume cs size (d.fileData h) pos) :
    d.readAll h counts = slices (chainByte d.volume cs) size pos counts := by
  induction counts generalizing d pos with
  | nil => rfl
  | cons n counts ih =>
    obtain ⟨fd', e, h'⟩ := hat.read hv hc hr hsize h32 n
    have hvol : (d.setFileData h fd').volume = d.volume := volume_setFileData ..
    have hrest := @ih (d.setFileData h fd') (pos + min n (size - pos))
    rw [hvol, fileData_setFileData] at hrest
    simp only [FatData.readAll, slices, FatData.read, e, hrest hv hc hr hsize h']

/-- A file that has just been opened is at its start. -/
theorem fatOpenEntry_at (hv : d.volume.Fat12) (hr : Readable d.volume cs)
    (hfirst : cs.head? = some entry.firstCluster) (hreg : entry.attributes &&& 0x10 = 0)
    (hfree : ∃ i < maxFileHandles, (d.openedFiles i).opened = false) :
    ∃ h, (fatOpenEntry d entry).2 = some h ∧ (fatOpenEntry d entry).1.volume = d.volume ∧
      FileAt d.volume cs entry.size ((fatOpenEntry d entry).1.fileData h) 0 := by
  obtain ⟨c, cs, rfl⟩ : ∃ c cs', cs = c :: cs' := by
    cases cs with
    | nil => cases hfirst
    | cons c cs' => exact ⟨c, cs', rfl⟩
  obtain rfl : c = entry.firstCluster := Option.some.inj hfirst
  obtain ⟨i, hfind⟩ : ∃ i, ((List.range maxFileHandles).find? fun i =>
      !(d.openedFiles i).opened) = some i := by
    obtain ⟨i, hi, hclosed⟩ := hfree
    exact Option.isSome_iff_exists.1
      (List.find?_isSome.2 ⟨i, List.mem_range.2 hi, by rw [hclosed]; rfl⟩)
  obtain ⟨buffer, hload, hbuf⟩ := fatLoadSector_chain (fatNewFile (d.openedFiles i) i entry) hr
    (k := 0) (by simpa using hv.pos)
  have e : chainLba d.volume (entry.firstCluster :: cs) 0 =
      fatClusterToLba d.volume (fatNewFile (d.openedFiles i) i entry).currentCluster := by
    simp [chainLba, fatNewFile, fatClusterToLba]
  rw [e] at hload
  simp only [fatOpenEntry, hfind, hload, if_pos, volume_setFileData]
  refine ⟨i, rfl, trivial, ?_⟩
  rw [fileData_setFileData]
  exact ⟨by simp [fatNewFile, rootDirectoryHandle], by simp [fatNewFile, hreg], rfl, rfl,
    Nat.zero_le _, fun _ => ⟨by simpa using hbuf, by simp [fatNewFile], by simp [fatNewFile]⟩⟩

end

/-- Clusters of one sector, where the third follows the second and ends the chain. -/
def twoClusters : FatData :=
  let fat : Buf := fun i => ([0, 0, 0, 0x03, 0xF0, 0xFF] : List UInt8).getD i 0
  let closed : FatFileData := ⟨fun _ => 0, ⟨0, false, 0, 0⟩, false, 0, 0, 0⟩
  ⟨⟨fun lba => some fun j => UInt8.ofNat (lba + j), 1, 33, fat⟩, closed, fun _ => closed⟩

/-- The entry of a file with 600 bytes in the second and the third cluster. -/
def twoClustersEntry : FatDirent :=
  List.replicate 12 0x20 ++ List.replicate 14 0 ++ [2, 0, 0x58, 2, 0, 0]

end Kabanos
