/-
  The tags of a boot block, and what the parser makes of each.

  `TagWalk` reads a block as a list of tags, the way the parser walks over it, and
  `BootState.add` is the effect of one tag; `yields_parseTags` says that the parser adds the tags
  one after the other, and `of_parseTags` that every block on which it returns is such a list.
-/
import Kabanos.Boot.BootInfo

namespace Kabanos

inductive BootTag
  | cmdline (s : CStr)
  | module (m : BootModule)
  | mmap (regions : List MemoryRegion)
  | other

/-- The entries of a memory map, each `step` bytes after the one before. -/
inductive EntryWalk (mbi : Buf) (step stop : ℕ) : ℕ → List MemoryRegion → Prop
  | done {entry} : stop ≤ entry → EntryWalk mbi step stop entry []
  | next {entry rs} : entry < stop → EntryWalk mbi step stop (entry + step) rs →
      EntryWalk mbi step stop entry (readMmapEntry mbi entry :: rs)

inductive TagAt (mbi : Buf) (tag : ℕ) : BootTag → Prop
  | cmdline {s} : getU32 mbi tag = 1 → StrAt mbi (tag + 8) s → TagAt mbi tag (.cmdline s)
  | module {m} : getU32 mbi tag = 3 → getU32 mbi (tag + 8) = m.start.toNat →
      sub32 (getU32 mbi (tag + 12)) (getU32 mbi (tag + 8)) = m.size.toNat →
      StrAt mbi (tag + 16) m.path → TagAt mbi tag (.module m)
  | mmap {rs} : getU32 mbi tag = 6 →
      EntryWalk mbi (getU32 mbi (tag + 8)) (tag + getU32 mbi (tag + 4)) (tag + 16) rs →
      TagAt mbi tag (.mmap rs)
  | other : getU32 mbi tag ≠ 0 → getU32 mbi tag ≠ 1 → getU32 mbi tag ≠ 3 →
      getU32 mbi tag ≠ 6 → TagAt mbi tag .other

/-- The tags from an offset on, up to the end tag or the end of the block. -/
inductive TagWalk (mbi : Buf) : ℕ → List BootTag → Prop
  | stop {tag} : getU32 mbi 0 ≤ tag → TagWalk mbi tag []
  | endTag {tag} : tag < getU32 mbi 0 → getU32 mbi tag = 0 → TagWalk mbi tag []
  | next {tag t ts} : tag < getU32 mbi 0 → TagAt mbi tag t →
      TagWalk mbi (tag + alignUp8 (getU32 mbi (tag + 4))) ts → TagWalk mbi tag (t :: ts)

/-- The command line is copied. -/
def BootState.addCmdline (s : BootState) (cmdline : CStr) : BootState :=
  let (p, e) := earlyAlloc s.early (cmdline.length + 1)
  ⟨e.store (strcpy e.mem p cmdline), { s.kbi with cmdline := p }⟩

/-- A descriptor is put in front of the list, followed by the copy of its name. -/
def BootState.addModule (s : BootState) (m : BootModule) : BootState :=
  let (mod, e) := earlyAlloc s.early 32
  let mem := memset e.mem mod 0 32
  let mem := putU32 mem (mod + 16) m.start.toNat
  let mem := putU32 mem (mod + 20) m.size.toNat
  let (name, e) := earlyAlloc (e.store mem) (m.path.length + 1)
  let mem := strcpy e.mem name m.path
  let mem := putU32 mem mod name
  let mem := putU32 mem (mod + 28) s.kbi.modules
  ⟨e.store mem, { s.kbi with modules := mod, moduleCount := s.kbi.moduleCount + 1 }⟩

/-- The effect of a tag. -/
def BootState.add (s : BootState) : BootTag → BootState
  | .cmdline c => s.addCmdline c
  | .module m => s.addModule m
  | .mmap rs => { s with kbi := rs.foldl addRegion s.kbi }
  | .other => s

section
variable {mbi : Buf} {n tag step stop entry len : ℕ} {s s' : BootState} {c : CStr} {m : BootModule}
  {rs : List MemoryRegion} {t : BootTag} {ts : List BootTag} {kbi kbi' : KernelBootInfo}

/-! ## One tag -/

theorem parseCmdlineTag_eq (hl : strlen n mbi (tag + 8) = some c.length)
    (h : StrAt mbi (tag + 8) c) : parseCmdlineTag n mbi tag s = some (s.addCmdline c) := by
  simp only [parseCmdlineTag, BootState.addCmdline, hl, Option.bind_eq_bind, Option.bind_some,
    h.memcpy, Option.pure_def]

theorem parseModuleTag_eq (hl : strlen n mbi (tag + 16) = some m.path.length)
    (hs : getU32 mbi (tag + 8) = m.start.toNat)
    (hz : sub32 (getU32 mbi (tag + 12)) (getU32 mbi (tag + 8)) = m.size.toNat)
    (h : StrAt mbi (tag + 16) m.path) :
    parseModuleTag n mbi tag s = some (s.addModule m) := by
  simp only [parseModuleTag, BootState.addModule, hl, hz, Option.bind_eq_bind, Option.bind_some,
    h.memcpy, Option.pure_def]
  rw [hs]

theorem EntryWalk.yields (h : EntryWalk mbi step stop entry rs) (kbi : KernelBootInfo) :
    ∃ e, Yields (fun n => loop (fun (p : ℕ × KernelBootInfo) =>
      if p.1 < stop then some (p.1 + step, addRegion p.2 (readMmapEntry mbi p.1)) else none) n
      (entry, kbi)) (e, rs.foldl addRegion kbi) := by
  induction h generalizing kbi with
  | done h => exact ⟨_, yields_loop_end (if_neg (Nat.not_lt.2 h))⟩
  | next h _ ih =>
    obtain ⟨e, he⟩ := ih (addRegion kbi (readMmapEntry mbi _))
    exact ⟨e, yields_loop_step (if_pos h) he⟩

theorem EntryWalk.of_loop {p p' : ℕ × KernelBootInfo} (h : loop (fun (p : ℕ × KernelBootInfo) =>
      if p.1 < stop then some (p.1 + step, addRegion p.2 (readMmapEntry mbi p.1)) else none) n p
      = some p') :
    ∃ rs, EntryWalk mbi step stop p.1 rs := by
  induction n generalizing p with
  | zero => cases h
  | succ n ih =>
    simp only [loop] at h
    by_cases hp : p.1 < stop
    · rw [if_pos hp] at h
      obtain ⟨rs, hw⟩ := ih h
      exact ⟨_, .next hp hw⟩
    · exact ⟨[], .done (Nat.not_lt.1 hp)⟩

theorem yields_parseMmapTag
    (h : EntryWalk mbi (getU32 mbi (tag + 8)) (tag + getU32 mbi (tag + 4)) (tag + 16) rs) :
    Yields (fun n => parseMmapTag n mbi tag kbi) (rs.foldl addRegion kbi) := by
  obtain ⟨e, he⟩ := h.yields kbi
  exact he.map Prod.snd

theorem of_parseMmapTag (h : parseMmapTag n mbi tag kbi = some kbi') :
    ∃ rs, EntryWalk mbi (getU32 mbi (tag + 8)) (tag + getU32 mbi (tag + 4)) (tag + 16) rs := by
  obtain ⟨p, hp, -⟩ := Option.map_eq_some_iff.1 h
  exact EntryWalk.of_loop hp

/-! ## All tags -/

/-- **The parser adds the tags of the block.** -/
theorem yields_parseTags (h : TagWalk mbi tag ts) (s : BootState) :
    Yields (fun n => parseTags mbi n tag s) (ts.foldl BootState.add s) := by
  induction h generalizing s with
  | stop h =>
    refine Yields.succ ?_
    simp only [parseTags, if_neg (Nat.not_lt.2 h)]
    exact .pure _
  | endTag h h0 =>
    refine Yields.succ ?_
    simp only [parseTags, if_pos h, h0]
    exact .pure _
  | @next tag t ts h ht _ ih =>
    have hrest := ih (s.add t)
    rw [List.foldl_cons]
    refine Yields.succ ?_
    cases ht with
    | cmdline hk hc =>
      simp only [parseTags, if_pos h, hk]
      refine Yields.bind ?_ hrest
      obtain ⟨n, hn⟩ := hc.yields_strlen
      exact ⟨n, fun k hk => parseCmdlineTag_eq (hn k hk) hc⟩
    | module hk hs hz hc =>
      simp only [parseTags, if_pos h, hk]
      refine Yields.bind ?_ hrest
      obtain ⟨n, hn⟩ := hc.yields_strlen
      exact ⟨n, fun k hk => parseModuleTag_eq (hn k hk) hs hz hc⟩
    | mmap hk hw =>
      simp only [parseTags, if_pos h, hk]
      exact Yields.bind (yields_parseMmapTag hw) hrest
    | other h0 h1 h3 h6 =>
      simp only [parseTags, if_pos h]
      exact hrest

theorem of_parseTags (h : parseTags mbi n tag s = some s') : ∃ ts, TagWalk mbi tag ts := by
  induction n generalizing tag s with
  | zero => cases h
  | succ n ih =>
    simp only [parseTags] at h
    by_cases ht : tag < getU32 mbi 0
    swap
    · exact ⟨[], .stop (Nat.not_lt.1 ht)⟩
    rw [if_pos ht] at h
    split at h
    next h0 => exact ⟨[], .endTag ht h0⟩
    next h1 =>
      obtain ⟨s1, hp, h⟩ := Option.bind_eq_some_iff.1 h
      obtain ⟨ts, hw⟩ := ih h
      obtain ⟨len, hl, -⟩ := Option.bind_eq_some_iff.1 hp
      obtain ⟨c, rfl, hc⟩ := strAt_of_strlen hl
      exact ⟨.cmdline c :: ts, .next ht (.cmdline h1 hc) hw⟩
    next h3 =>
      obtain ⟨s1, hp, h⟩ := Option.bind_eq_some_iff.1 h
      obtain ⟨ts, hw⟩ := ih h
      obtain ⟨len, hl, -⟩ := Option.bind_eq_some_iff.1 hp
      obtain ⟨c, rfl, hc⟩ := strAt_of_strlen hl
      refine ⟨.module ⟨UInt32.ofNat (getU32 mbi (tag + 8)),
        UInt32.ofNat (sub32 (getU32 mbi (tag + 12)) (getU32 mbi (tag + 8))), c⟩ :: ts,
        .next ht (.module h3 ?_ ?_ hc) hw⟩
      · exact (UInt32.toNat_ofNat_of_lt' (getU32_lt mbi (tag + 8))).symm
      · exact (UInt32.toNat_ofNat_of_lt' (Nat.mod_lt _ (by decide))).symm
    next h6 =>
      obtain ⟨kbi, hp, h⟩ := Option.bind_eq_some_iff.1 h
      obtain ⟨ts, hw⟩ := ih h
      obtain ⟨rs, hr⟩ := of_parseMmapTag hp
      exact ⟨.mmap rs :: ts, .next ht (.mmap h6 hr) hw⟩
    next h0 h1 h3 h6 =>
      obtain ⟨ts, hw⟩ := ih h
      exact ⟨.other :: ts, .next ht (.other h0 h1 h3 h6) hw⟩

end

end Kabanos
