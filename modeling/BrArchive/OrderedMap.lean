import Mathlib.Data.List.Lex
import Mathlib.Data.List.Nodup
import Mathlib.Data.List.Perm.Basic
import Mathlib.Data.List.Sort
import Mathlib.Order.Lattice

/-! # Ordered maps and sets

A map as the list of its entries in the order of their keys, which is the order in which
it is walked.  Every change goes through `alter`: the value of one key is made from the
value it had, if any.  A set is a map without values.
-/

/-- A map whose entries are in the order of their keys. -/
structure OrderedMap (κ ν : Type) [LinearOrder κ] where
  entries : List (κ × ν)
  sorted : (entries.map Prod.fst).Pairwise (· < ·)
  deriving DecidableEq

namespace OrderedMap
variable {κ ν : Type} [LinearOrder κ]

/-- The list of entries with the value of `k` changed. -/
def alterList (k : κ) (f : Option ν → ν) : List (κ × ν) → List (κ × ν)
  | [] => [(k, f none)]
  | (k', v) :: rest =>
    if k < k' then (k, f none) :: (k', v) :: rest
    else if k = k' then (k', f (some v)) :: rest
    else (k', v) :: alterList k f rest

theorem mem_keys_alterList {k k' : κ} {f : Option ν → ν} {l : List (κ × ν)} :
    k' ∈ (alterList k f l).map Prod.fst ↔ k' = k ∨ k' ∈ l.map Prod.fst := by
  induction l with
  | nil => simp [alterList]
  | cons e l ih =>
    obtain ⟨key, v⟩ := e
    rw [alterList]
    split
    · simp
    · split
      · rename_i hkey
        subst hkey
        simp
      · rw [List.map_cons, List.mem_cons, ih, List.map_cons, List.mem_cons]
        exact or_left_comm

theorem sorted_alterList (k : κ) (f : Option ν → ν) {l : List (κ × ν)}
    (h : (l.map Prod.fst).Pairwise (· < ·)) :
    ((alterList k f l).map Prod.fst).Pairwise (· < ·) := by
  induction l with
  | nil => simp [alterList]
  | cons e l ih =>
    obtain ⟨key, v⟩ := e
    rw [List.map_cons, List.pairwise_cons] at h
    obtain ⟨hkey, hrest⟩ := h
    rw [alterList]
    split
    · rename_i hlt
      refine List.Pairwise.cons (List.forall_mem_cons.mpr ⟨hlt, fun b hb => ?_⟩)
        (List.Pairwise.cons hkey hrest)
      exact hlt.trans (hkey b hb)
    · split
      · exact List.Pairwise.cons hkey hrest
      · rename_i hnlt hne
        refine List.Pairwise.cons (fun b hb => ?_) (ih hrest)
        rcases mem_keys_alterList.mp hb with rfl | hb
        · exact lt_of_le_of_ne (not_lt.mp hnlt) (Ne.symm hne)
        · exact hkey b hb

theorem lookup_eq_none_of_lt {k : κ} {l : List (κ × ν)} (h : ∀ k' ∈ l.map Prod.fst, k < k') :
    l.lookup k = none := by
  refine List.lookup_eq_none_iff.mpr fun e he => ?_
  simpa using (h e.1 (List.mem_map_of_mem he)).ne

theorem lookup_alterList {k k' : κ} {f : Option ν → ν} {l : List (κ × ν)}
    (h : (l.map Prod.fst).Pairwise (· < ·)) :
    (alterList k f l).lookup k' = if k' = k then some (f (l.lookup k)) else l.lookup k' := by
  induction l with
  | nil =>
    by_cases hk : k' = k
    · simp [alterList, hk]
    · simp [alterList, hk, List.lookup_cons, beq_false_of_ne hk]
  | cons e l ih =>
    obtain ⟨key, v⟩ := e
    rw [List.map_cons, List.pairwise_cons] at h
    obtain ⟨hkey, hrest⟩ := h
    rw [alterList]
    split
    · rename_i hlt
      -- the new key comes before all the others
      have hnone : ((key, v) :: l).lookup k = none :=
        lookup_eq_none_of_lt (List.forall_mem_cons.mpr ⟨hlt, fun b hb => hlt.trans (hkey b hb)⟩)
      rw [hnone, List.lookup_cons]
      by_cases hk : k' = k
      · simp [hk]
      · simp [hk, beq_false_of_ne hk]
    · split
      · rename_i hkk
        subst hkk
        simp only [List.lookup_cons, beq_self_eq_true]
        by_cases hk : k' = k
        · simp [hk]
        · simp [hk, beq_false_of_ne hk]
      · rename_i hnlt hne
        rw [List.lookup_cons, ih hrest]
        by_cases hk : k' = key
        · subst hk
          simp [Ne.symm hne]
        · simp [List.lookup_cons, beq_false_of_ne hk, beq_false_of_ne hne]

/-! ## Operations -/

/-- The empty map. -/
def empty : OrderedMap κ ν := ⟨[], List.Pairwise.nil⟩

/-- The map with the value of `k` changed. -/
def alter (m : OrderedMap κ ν) (k : κ) (f : Option ν → ν) : OrderedMap κ ν :=
  ⟨alterList k f m.entries, sorted_alterList k f m.sorted⟩

/-- The keys in their order. -/
def keys (m : OrderedMap κ ν) : List κ := m.entries.map Prod.fst

/-- The value of a key. -/
def lookup (m : OrderedMap κ ν) (k : κ) : Option ν := m.entries.lookup k

/-- The map without the key `k`. -/
def erase (m : OrderedMap κ ν) (k : κ) : OrderedMap κ ν :=
  ⟨m.entries.filter (·.1 ≠ k), m.sorted.sublist (List.filter_sublist.map Prod.fst)⟩

@[simp] theorem mem_keys_empty {k : κ} : k ∉ (empty : OrderedMap κ ν).keys := List.not_mem_nil

@[simp] theorem mem_keys_alter {m : OrderedMap κ ν} {k k' : κ} {f : Option ν → ν} :
    k' ∈ (m.alter k f).keys ↔ k' = k ∨ k' ∈ m.keys := mem_keys_alterList

@[simp] theorem mem_keys_erase {m : OrderedMap κ ν} {k k' : κ} :
    k' ∈ (m.erase k).keys ↔ k' ∈ m.keys ∧ k' ≠ k := by
  simp only [keys, erase, List.mem_map, List.mem_filter, decide_eq_true_eq]
  constructor
  · rintro ⟨e, ⟨he, hne⟩, rfl⟩
    exact ⟨⟨e, he, rfl⟩, hne⟩
  · rintro ⟨⟨e, he, rfl⟩, hne⟩
    exact ⟨e, ⟨he, hne⟩, rfl⟩

theorem length_keys_erase_le (m : OrderedMap κ ν) (k : κ) :
    (m.erase k).keys.length ≤ m.keys.length :=
  (List.filter_sublist.map Prod.fst).length_le

@[simp] theorem lookup_empty {k : κ} : (empty : OrderedMap κ ν).lookup k = none := rfl

theorem lookup_alter {m : OrderedMap κ ν} {k k' : κ} {f : Option ν → ν} :
    (m.alter k f).lookup k' = if k' = k then some (f (m.lookup k)) else m.lookup k' :=
  lookup_alterList m.sorted

theorem nodup_keys (m : OrderedMap κ ν) : m.keys.Nodup := m.sorted.imp ne_of_lt

/-- An entry is the value of its key. -/
theorem mem_entries_iff {m : OrderedMap κ ν} {k : κ} {v : ν} :
    (k, v) ∈ m.entries ↔ m.lookup k = some v := by
  rw [lookup, List.lookup_eq_some_iff]
  constructor
  · intro h
    obtain ⟨l₁, l₂, hl⟩ := List.append_of_mem h
    refine ⟨l₁, l₂, hl, fun e he => ?_⟩
    have hnodup := m.nodup_keys
    rw [keys, hl, List.map_append, List.map_cons, List.nodup_middle, List.nodup_cons] at hnodup
    have hmem : e.1 ∈ l₁.map Prod.fst := List.mem_map_of_mem he
    have hne : k ≠ e.1 := fun hk => hnodup.1 (List.mem_append_left _ (hk ▸ hmem))
    simpa using hne
  · rintro ⟨l₁, l₂, hl, -⟩
    rw [hl]
    exact List.mem_append_right _ List.mem_cons_self

theorem mem_keys_iff {m : OrderedMap κ ν} {k : κ} : k ∈ m.keys ↔ ∃ v, m.lookup k = some v := by
  rw [keys, List.mem_map]
  constructor
  · rintro ⟨⟨k, v⟩, he, rfl⟩
    exact ⟨v, mem_entries_iff.mp he⟩
  · rintro ⟨v, hv⟩
    exact ⟨(k, v), mem_entries_iff.mpr hv, rfl⟩

/-- **The walk up to a key**: it has met all smaller keys, and no others. -/
theorem exists_split {m : OrderedMap κ ν} {k : κ} {v : ν} (h : m.lookup k = some v) :
    ∃ l₁ l₂, m.entries = l₁ ++ (k, v) :: l₂ ∧ ∀ k', k' ∈ l₁.map Prod.fst ↔ k' ∈ m.keys ∧ k' < k := by
  obtain ⟨l₁, l₂, hl⟩ := List.append_of_mem (mem_entries_iff.mpr h)
  have hsorted := m.sorted
  rw [hl, List.map_append, List.map_cons, List.pairwise_append, List.pairwise_cons] at hsorted
  obtain ⟨-, ⟨hafter, -⟩, hbefore⟩ := hsorted
  refine ⟨l₁, l₂, hl, fun k' => ?_⟩
  rw [keys, hl, List.map_append, List.map_cons, List.mem_append, List.mem_cons]
  constructor
  · exact fun hk => ⟨.inl hk, hbefore k' hk k List.mem_cons_self⟩
  · rintro ⟨hk | rfl | hk, hlt⟩
    · exact hk
    · exact absurd hlt (lt_irrefl _)
    · exact absurd hlt (lt_asymm (hafter k' hk))

end OrderedMap

/-! ## Sets -/

/-- A set whose elements are in order. -/
abbrev OrderedSet (α : Type) [LinearOrder α] := OrderedMap α Unit

/-- The set with one more element. -/
def OrderedSet.insert {α : Type} [LinearOrder α] (s : OrderedSet α) (a : α) : OrderedSet α :=
  s.alter a fun _ => ()

@[simp] theorem OrderedSet.mem_insert {α : Type} [LinearOrder α] {s : OrderedSet α} {a b : α} :
    b ∈ (OrderedSet.insert s a).keys ↔ b = a ∨ b ∈ s.keys :=
  OrderedMap.mem_keys_alter

/-- `set::contains`. -/
def OrderedSet.contains {α : Type} [LinearOrder α] (s : OrderedSet α) (a : α) : Bool :=
  (s.lookup a).isSome

theorem OrderedSet.contains_iff {α : Type} [LinearOrder α] {s : OrderedSet α} {a : α} :
    OrderedSet.contains s a = true ↔ a ∈ s.keys := by
  rw [OrderedSet.contains, Option.isSome_iff_exists, OrderedMap.mem_keys_iff]

/-- A set is what is in it. -/
theorem OrderedSet.eq_of_mem_iff {α : Type} [LinearOrder α] {s s' : OrderedSet α}
    (h : ∀ a, a ∈ s.keys ↔ a ∈ s'.keys) : s = s' := by
  have hkeys : s.keys = s'.keys := s.sorted.eq_of_mem_iff s'.sorted h
  have hentries : s.entries = s'.entries :=
    List.map_injective_iff.mpr (fun _ _ h => Prod.ext h rfl) hkeys
  cases s
  cases s'
  cases hentries
  rfl
