/-
  The ARP cache as a map that forgets the oldest address: `arp_cache_lookup` and
  `arp_cache_insert` over any history of insertions.
-/
import Kabanos.Lib.Rotate
import Kabanos.Net.Sockets

namespace Kabanos

open Function (update update_apply update_of_ne update_self)

def arpCacheLookup (n : Net) (ip : List UInt8) : Option (List UInt8) :=
  ((List.range arpCacheSize).find? fun i =>
    (n.arpCache i).valid && (n.arpCache i).ip == ip).map fun i => (n.arpCache i).mac

/-- The address of a valid entry. -/
def ArpCacheEntry.key (e : ArpCacheEntry) : Option (List UInt8) :=
  if e.valid then some e.ip else none

/-- No entry is valid, and the first slot is the next one. -/
def Net.EmptyCache (n : Net) : Prop := (∀ i, (n.arpCache i).valid = false) ∧ n.arpCacheNext = 0

section
variable {n : Net} {ip mac : List UInt8} {i : ℕ}

theorem ArpCacheEntry.key_eq_some {e : ArpCacheEntry} : e.key = some ip ↔ e.valid ∧ e.ip = ip := by
  rw [key]
  split_ifs with h <;> simp [h]

theorem arp_search_cases (n : Net) (ip : List UInt8) :
    (∃ i < arpCacheSize, (n.arpCache i).key = some ip ∧ (List.range arpCacheSize).find?
      (fun i => (n.arpCache i).valid && (n.arpCache i).ip == ip) = some i) ∨
    (∀ i < arpCacheSize, (n.arpCache i).key ≠ some ip) ∧ (List.range arpCacheSize).find?
      (fun i => (n.arpCache i).valid && (n.arpCache i).ip == ip) = none := by
  cases hf : (List.range arpCacheSize).find?
      (fun i => (n.arpCache i).valid && (n.arpCache i).ip == ip) with
  | some i =>
    have hi := List.find?_some hf
    simp only [Bool.and_eq_true, beq_iff_eq] at hi
    exact .inl ⟨i, List.mem_range.1 (List.mem_of_find?_eq_some hf),
      ArpCacheEntry.key_eq_some.2 hi, rfl⟩
  | none =>
    refine .inr ⟨fun i hi hk => ?_, rfl⟩
    have hv := List.find?_eq_none.1 hf i (List.mem_range.2 hi)
    obtain ⟨h1, h2⟩ := ArpCacheEntry.key_eq_some.1 hk
    simp [h1, h2] at hv

/-- **An insertion** changes the address of the entry that is there, or fills the next slot. -/
theorem arpCacheInsert_cases (n : Net) (ip mac : List UInt8) :
    (∃ i < arpCacheSize, (n.arpCache i).key = some ip ∧
      arpCacheLookup n ip = some (n.arpCache i).mac ∧ arpCacheInsert n ip mac =
        { n with arpCache := update n.arpCache i { n.arpCache i with mac := mac } }) ∨
    arpCacheLookup n ip = none ∧ (∀ i < arpCacheSize, (n.arpCache i).key ≠ some ip) ∧
      arpCacheInsert n ip mac =
        { n with
          arpCache := update n.arpCache n.arpCacheNext ⟨ip, mac, true⟩
          arpCacheNext := (n.arpCacheNext + 1) % arpCacheSize } := by
  rcases arp_search_cases n ip with ⟨i, hi, hk, hf⟩ | ⟨hk, hf⟩
  · exact .inl ⟨i, hi, hk, by rw [arpCacheLookup, hf]; rfl, by rw [arpCacheInsert, hf]⟩
  · exact .inr ⟨by rw [arpCacheLookup, hf]; rfl, hk, by rw [arpCacheInsert, hf]⟩

theorem arpCacheLookup_isSome :
    (arpCacheLookup n ip).isSome ↔ ∃ i < arpCacheSize, (n.arpCache i).key = some ip := by
  rcases arpCacheInsert_cases n ip [] with ⟨i, hi, hk, hl, -⟩ | ⟨hl, hk, -⟩
  · simp only [hl, Option.isSome_some, true_iff]
    exact ⟨i, hi, hk⟩
  · simp only [hl, Option.isSome_none, Bool.false_eq_true, false_iff]
    rintro ⟨i, hi, h⟩
    exact hk i hi h

/-! ## Histories -/

/-- A call of `arp_cache_insert`. -/
structure ArpInsert where
  ip : List UInt8
  mac : List UInt8

/-- The network, and the addresses for which an entry was created, the newest first. -/
structure ArpLog where
  net : Net
  created : List (List UInt8)

/-- An insertion that creates an entry is noted. -/
def ArpLog.insert (s : ArpLog) (op : ArpInsert) : ArpLog where
  net := arpCacheInsert s.net op.ip op.mac
  created := if (arpCacheLookup s.net op.ip).isSome then s.created else op.ip :: s.created

/-- The last insertion for an address. -/
def lastInsert (ops : List ArpInsert) (ip : List UInt8) : Option (List UInt8) :=
  (ops.reverse.find? fun op => op.ip == ip).map ArpInsert.mac

theorem lastInsert_append (ops : List ArpInsert) (op : ArpInsert) (ip : List UInt8) :
    lastInsert (ops ++ [op]) ip = if op.ip = ip then some op.mac else lastInsert ops ip := by
  rw [lastInsert, List.reverse_append, List.reverse_singleton, List.singleton_append,
    List.find?_cons]
  split_ifs with h
  · simp [h]
  · rw [beq_false_of_ne h]
    rfl

/-- The slots hold the last addresses that were created, each with its last MAC. -/
structure ArpLog.Holds (s : ArpLog) (ops : List ArpInsert) : Prop where
  rotates : Rotates arpCacheSize (fun i => (s.net.arpCache i).key) s.net.arpCacheNext s.created
  nodup : (s.created.take arpCacheSize).Nodup
  macs : ∀ i < arpCacheSize, ∀ ip, (s.net.arpCache i).key = some ip →
    lastInsert ops ip = some (s.net.arpCache i).mac

theorem ArpLog.Holds.nil (h : n.EmptyCache) : (ArpLog.mk n []).Holds [] := by
  have hk : ∀ i, (n.arpCache i).key = none := fun i => by rw [ArpCacheEntry.key, h.1 i]; rfl
  refine ⟨.nil ?_ fun j _ => hk j, List.nodup_nil, fun i _ ip e => ?_⟩
  · show n.arpCacheNext < arpCacheSize
    rw [h.2]
    decide
  · exact absurd ((hk i).symm.trans e) nofun

section
variable {s : ArpLog} {ops : List ArpInsert} {op : ArpInsert}

theorem ArpLog.Holds.refresh (h : s.Holds ops) (hi : i < arpCacheSize)
    (hk : (s.net.arpCache i).key = some op.ip) :
    ArpLog.Holds ⟨{ s.net with
      arpCache := update s.net.arpCache i { s.net.arpCache i with mac := op.mac } },
      s.created⟩ (ops ++ [op]) := by
  have hkey : ∀ j, (update s.net.arpCache i
      { s.net.arpCache i with mac := op.mac } j).key = (s.net.arpCache j).key := by
    intro j
    rw [update_apply]
    split_ifs with hj
    · rw [hj]
      rfl
    · rfl
  refine ⟨⟨h.rotates.next_lt, fun j hj => (hkey _).trans (h.rotates.slot j hj)⟩, h.nodup,
    fun j hj ip e => ?_⟩
  have hj' : (s.net.arpCache j).key = some ip := (hkey j).symm.trans e
  rw [lastInsert_append]
  by_cases hip : op.ip = ip
  · obtain rfl := h.rotates.slot_inj h.nodup hi hj (hip ▸ hk) hj'
    rw [if_pos hip]
    show _ = some (update s.net.arpCache i _ i).mac
    rw [update_self]
  · have hne : j ≠ i := by
      rintro rfl
      exact hip (Option.some.inj (hk.symm.trans hj'))
    rw [if_neg hip]
    show _ = some (update s.net.arpCache i _ j).mac
    rw [update_of_ne hne]
    exact h.macs j hj ip hj'

theorem ArpLog.Holds.create (h : s.Holds ops)
    (hk : ∀ i < arpCacheSize, (s.net.arpCache i).key ≠ some op.ip) :
    ArpLog.Holds ⟨{ s.net with
      arpCache := update s.net.arpCache s.net.arpCacheNext ⟨op.ip, op.mac, true⟩
      arpCacheNext := (s.net.arpCacheNext + 1) % arpCacheSize }, op.ip :: s.created⟩
      (ops ++ [op]) := by
  have hkey : (fun j => (update s.net.arpCache s.net.arpCacheNext
      ⟨op.ip, op.mac, true⟩ j).key) = update (fun j => (s.net.arpCache j).key)
        s.net.arpCacheNext (some op.ip) := by
    funext j
    rw [update_apply, update_apply]
    split_ifs <;> rfl
  have hnew : op.ip ∉ s.created.take arpCacheSize := fun hm => by
    obtain ⟨i, hi, e⟩ := h.rotates.mem_iff.2 hm
    exact hk i hi e
  refine ⟨?_, ?_, fun j hj ip e => ?_⟩
  · show Rotates _ (fun j => (update s.net.arpCache _ _ j).key) _ _
    rw [hkey]
    exact h.rotates.push op.ip
  · show (op.ip :: s.created.take 15).Nodup
    have hsub : (s.created.take 15).Sublist (s.created.take arpCacheSize) :=
      List.take_sublist_take_left (by decide)
    exact List.nodup_cons.2 ⟨fun hm => hnew (hsub.subset hm), h.nodup.sublist hsub⟩
  · change (update s.net.arpCache _ _ j).key = some ip at e
    show _ = some (update s.net.arpCache _ _ j).mac
    rw [lastInsert_append]
    by_cases hn : j = s.net.arpCacheNext
    · rw [hn, update_self] at e ⊢
      rw [if_pos (Option.some.inj e)]
    · rw [update_of_ne hn] at e ⊢
      rw [if_neg fun hip : op.ip = ip => hk j hj (hip ▸ e)]
      exact h.macs j hj ip e

theorem ArpLog.Holds.insert (h : s.Holds ops) (op : ArpInsert) :
    (s.insert op).Holds (ops ++ [op]) := by
  rcases arpCacheInsert_cases s.net op.ip op.mac with ⟨i, hi, hk, hl, e⟩ | ⟨hl, hk, e⟩
  · rw [ArpLog.insert, e, hl, Option.isSome_some, if_pos rfl]
    exact h.refresh hi hk
  · rw [ArpLog.insert, e, hl, Option.isSome_none, if_neg Bool.false_ne_true]
    exact h.create hk

theorem ArpLog.Holds.foldl (h : s.Holds ops) (new : List ArpInsert) :
    (new.foldl ArpLog.insert s).Holds (ops ++ new) := by
  induction new generalizing s ops with
  | nil => rwa [List.append_nil]
  | cons op new ih =>
    rw [← List.singleton_append, ← List.append_assoc]
    exact ih (h.insert op)

end

/-- **The ARP cache is a map that forgets the oldest address.**  After any insertions no
    address is there twice, an address is found just if it is one of the last
    `ARP_CACHE_SIZE` that were created, with the MAC of its last insertion, and an insertion
    for it changes nothing but this MAC. -/
theorem arp_cache_fifo_map {n₀ : Net} (h₀ : n₀.EmptyCache) (ops : List ArpInsert) {s : ArpLog}
    (hs : s = ops.foldl ArpLog.insert ⟨n₀, []⟩) :
    (∀ i < arpCacheSize, ∀ j < arpCacheSize, (s.net.arpCache i).valid → (s.net.arpCache j).valid →
      (s.net.arpCache i).ip = (s.net.arpCache j).ip → i = j) ∧
    ∀ ip, ((arpCacheLookup s.net ip).isSome ↔ ip ∈ s.created.take arpCacheSize) ∧
      ∀ mac, arpCacheLookup s.net ip = some mac → lastInsert ops ip = some mac ∧
        ∀ mac', ∃ i < arpCacheSize, (s.net.arpCache i).valid ∧ (s.net.arpCache i).ip = ip ∧
          s.insert ⟨ip, mac'⟩ = ⟨{ s.net with
            arpCache := update s.net.arpCache i { s.net.arpCache i with mac := mac' } },
            s.created⟩ := by
  have h : s.Holds ops := by
    rw [hs]
    exact (ArpLog.Holds.nil h₀).foldl ops
  refine ⟨fun i hi j hj hvi hvj e => ?_, fun ip => ⟨?_, fun mac hl => ⟨?_, fun mac' => ?_⟩⟩⟩
  · exact h.rotates.slot_inj h.nodup hi hj (ArpCacheEntry.key_eq_some.2 ⟨hvi, rfl⟩)
      (ArpCacheEntry.key_eq_some.2 ⟨hvj, e.symm⟩)
  · rw [arpCacheLookup_isSome]
    exact h.rotates.mem_iff
  · rcases arpCacheInsert_cases s.net ip mac with ⟨i, hi, hk, hl', -⟩ | ⟨hl', -⟩
    · rw [h.macs i hi ip hk, ← hl', hl]
    · exact absurd (hl.symm.trans hl') nofun
  · rcases arpCacheInsert_cases s.net ip mac' with ⟨i, hi, hk, hl', e⟩ | ⟨hl', -⟩
    · obtain ⟨hv, hip⟩ := ArpCacheEntry.key_eq_some.1 hk
      refine ⟨i, hi, hv, hip, ?_⟩
      rw [ArpLog.insert, e, hl', Option.isSome_some, if_pos rfl]
    · exact absurd (hl.symm.trans hl') nofun

/-- Seventeen addresses, and the second one again with another MAC. -/
def demoInserts : List ArpInsert :=
  (List.range 17).map (fun i => ⟨[10, 0, 0, .ofNat (i + 2)], [2, 0, 0, 0, 0, .ofNat (i + 2)]⟩) ++
    [⟨[10, 0, 0, 3], [2, 0, 0, 0, 0, 99]⟩]

def demoLog : ArpLog := demoInserts.foldl ArpLog.insert ⟨demoSys.net, []⟩

/-- The first address is forgotten, and the second one has its last MAC. -/
theorem arp_cache_fifo_map_seventeen : arpCacheLookup demoLog.net [10, 0, 0, 2] = none ∧
    arpCacheLookup demoLog.net [10, 0, 0, 3] = some [2, 0, 0, 0, 0, 99] := by
  obtain ⟨-, h⟩ := arp_cache_fifo_map (show demoSys.net.EmptyCache from ⟨fun _ => rfl, rfl⟩)
    demoInserts (show demoLog = _ from rfl)
  constructor
  · have hout : [10, 0, 0, 2] ∉ demoLog.created.take arpCacheSize := by decide +kernel
    rwa [← (h _).1, Bool.not_eq_true, Option.isSome_eq_false_iff, Option.isNone_iff_eq_none] at hout
  · have hin : [10, 0, 0, 3] ∈ demoLog.created.take arpCacheSize := by decide +kernel
    obtain ⟨mac, hmac⟩ := Option.isSome_iff_exists.1 ((h _).1.2 hin)
    have hlast := ((h _).2 mac hmac).1
    rw [hmac, ← hlast]
    decide +kernel

end

end Kabanos
