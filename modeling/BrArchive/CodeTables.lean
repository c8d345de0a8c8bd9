import BrArchive.HuffmanRoundTrip

/-! # Code tables from an archive

The decoder takes any 256 bytes as the lengths of a code.  Their canonical codes need not be
prefix-free: there may be too many short ones, and a number that does not fit in 32 bits is cut
off.  The tree is built symbol by symbol, and the only check is on the last place of a code.
It finds a code that is the beginning of an earlier one, and misses one that goes on from an
earlier one: then the leaf of the earlier symbol is gone.
-/
namespace BrArchive
open CodeTree CanonicalCode

variable (lengths : UInt8 → UInt8)

/-- The canonical code of a symbol, as the decoder computes it. -/
def tableCode (i : UInt8) : List Bool := braHuffmanComputeCanonicalCodes lengths (fun _ => []) i

/-- The symbols that have a code, in the order in which they are put into the tree. -/
def tableSymbols : List UInt8 := alphabet.filter (fun i => lengths i ≠ 0)

/-- The codes with their symbols. -/
def tableStrings : List (List Bool × HuffmanNode) :=
  (tableSymbols lengths).map (fun i => (tableCode lengths i, ⟨i, 0⟩))

/-- No code is the beginning of another. -/
def PrefixFree : Prop :=
  ∀ i j, lengths i ≠ 0 → lengths j ≠ 0 → i ≠ j → ¬ tableCode lengths i <+: tableCode lengths j

/-- The leaves of the tree are the symbols at the end of their codes. -/
structure ExactTree (t : HuffmanTree) : Prop where
  leaf_eq : ∀ i, lengths i ≠ 0 → follow t (tableCode lengths i) = leaf ⟨i, 0⟩
  eq_of_leaf : ∀ v n, follow t v = leaf n →
    ∃ i, lengths i ≠ 0 ∧ v = tableCode lengths i ∧ n = ⟨i, 0⟩

/-- The decoder rejects what is not prefix-free, and gets the right tree otherwise. -/
structure DecodesPrefixFree : Prop where
  rejects : ¬ PrefixFree lengths → braHuffmanTreeBuildFromLengths lengths = none
  exact_tree : ∀ t, braHuffmanTreeBuildFromLengths lengths = some t → ExactTree lengths t

/-- The code of a symbol goes on from that of an earlier one. -/
def ExtendsEarlier : Prop :=
  ∃ i j, i < j ∧ lengths i ≠ 0 ∧ lengths j ≠ 0 ∧ tableCode lengths i <+: tableCode lengths j

/-- The code of a symbol is the beginning of that of an earlier one. -/
def BeginsEarlier : Prop :=
  ∃ i j, i < j ∧ lengths i ≠ 0 ∧ lengths j ≠ 0 ∧ tableCode lengths j <+: tableCode lengths i

variable {lengths}

theorem mem_tableSymbols {i : UInt8} : i ∈ tableSymbols lengths ↔ lengths i ≠ 0 := by
  rw [tableSymbols, List.mem_filter, decide_eq_true_eq]
  exact and_iff_right (mem_alphabet i)

theorem tableCode_ne_nil {i : UInt8} (hi : lengths i ≠ 0) : tableCode lengths i ≠ [] := by
  refine List.ne_nil_of_length_pos ?_
  rw [tableCode, computeCanonicalCodes_mod lengths hi, codeBits_length]
  exact codeLength_pos hi

/-- The tree is built from these strings. -/
theorem buildFromLengths_eq : braHuffmanTreeBuildFromLengths lengths =
    insertAll ⟨0, 0⟩ (leaf ⟨0, 0⟩) (tableStrings lengths) := rfl

theorem mem_tableStrings {i : UInt8} (hi : lengths i ≠ 0) :
    (tableCode lengths i, ⟨i, 0⟩) ∈ tableStrings lengths :=
  List.mem_map.mpr ⟨i, mem_tableSymbols.mpr hi, rfl⟩

theorem tableStrings_ne_nil : ∀ p ∈ tableStrings lengths, p.1 ≠ [] := by
  intro p hp
  obtain ⟨i, hi, rfl⟩ := List.mem_map.mp hp
  exact tableCode_ne_nil (mem_tableSymbols.mp hi)

theorem alphabet_sorted : alphabet.Pairwise (· < ·) := by
  refine List.pairwise_map.mpr (List.pairwise_lt_range.imp_of_mem fun {a b} ha hb hab => ?_)
  rw [UInt8.lt_iff_toNat_lt, UInt8.toNat_ofNat', UInt8.toNat_ofNat',
    Nat.mod_eq_of_lt (List.mem_range.mp ha), Nat.mod_eq_of_lt (List.mem_range.mp hb)]
  exact hab

/-- What holds of two symbols in a row holds of any two in their order. -/
theorem tableSymbols_pairwise {R : UInt8 → UInt8 → Prop} :
    (tableSymbols lengths).Pairwise R ↔
      ∀ i j, i < j → lengths i ≠ 0 → lengths j ≠ 0 → R i j := by
  have hsorted : (tableSymbols lengths).Pairwise (· < ·) := alphabet_sorted.filter _
  refine ⟨fun h i j hij hi hj => ?_, fun h => ?_⟩
  · have hR : (tableSymbols lengths).Pairwise (fun a b => a < b → R a b) := by
      refine h.imp ?_
      exact fun hR _ => hR
    have hflip : (tableSymbols lengths).Pairwise (flip fun a b => a < b → R a b) :=
      hsorted.imp fun hlt hgt => absurd hgt (UInt8.lt_asymm hlt)
    exact hR.forall_of_forall_of_flip (fun a _ haa => absurd haa (UInt8.lt_irrefl a)) hflip
      (mem_tableSymbols.mpr hi) (mem_tableSymbols.mpr hj) hij
  · exact hsorted.imp_of_mem fun ha hb hlt =>
      h _ _ hlt (mem_tableSymbols.mp ha) (mem_tableSymbols.mp hb)

/-- **Which tables are rejected.** -/
theorem buildFromLengths_isSome_iff :
    (braHuffmanTreeBuildFromLengths lengths).isSome ↔ ¬ BeginsEarlier lengths := by
  rw [buildFromLengths_eq, insertAll_isSome_iff _ tableStrings_ne_nil, tableStrings,
    List.pairwise_map, tableSymbols_pairwise]
  constructor
  · rintro h ⟨i, j, hij, hi, hj, hpre⟩
    exact h i j hij hi hj hpre
  · intro h i j hij hi hj hpre
    exact h ⟨i, j, hij, hi, hj, hpre⟩

/-- A table is prefix-free if of two codes neither the earlier nor the later one begins the
other. -/
theorem prefixFree_iff :
    PrefixFree lengths ↔ ¬ ExtendsEarlier lengths ∧ ¬ BeginsEarlier lengths := by
  constructor
  · intro h
    refine ⟨?_, ?_⟩
    · rintro ⟨i, j, hij, hi, hj, hpre⟩
      exact h i j hi hj (UInt8.ne_of_lt hij) hpre
    · rintro ⟨i, j, hij, hi, hj, hpre⟩
      exact h j i hj hi (Ne.symm (UInt8.ne_of_lt hij)) hpre
  · rintro ⟨hextends, hbegins⟩ i j hi hj hne hpre
    rcases UInt8.lt_or_lt_of_ne hne with hij | hji
    · exact hextends ⟨i, j, hij, hi, hj, hpre⟩
    · exact hbegins ⟨j, i, hji, hj, hi, hpre⟩

/-- The tree of a prefix-free table. -/
theorem exactTree_of_prefixFree (h : PrefixFree lengths) (hne : ∃ i, lengths i ≠ 0) :
    ∃ t, braHuffmanTreeBuildFromLengths lengths = some t ∧ ExactTree lengths t := by
  have hinc : (tableSymbols lengths).Pairwise
      (fun i j => Incomparable (tableCode lengths i) (tableCode lengths j)) :=
    tableSymbols_pairwise.mpr fun i j hij hi hj =>
      ⟨h i j hi hj (UInt8.ne_of_lt hij), h j i hj hi (Ne.symm (UInt8.ne_of_lt hij))⟩
  obtain ⟨t, ht, hgrown⟩ :=
    insertAll_grown ⟨0, 0⟩ tableStrings_ne_nil (List.pairwise_map.mpr hinc)
  refine ⟨t, buildFromLengths_eq.trans ht, fun i hi => ?_, fun v n hv => ?_⟩
  · exact (hgrown.codeword _ (mem_tableStrings hi)).2
  · obtain ⟨i, hi⟩ := hne
    have hstrings := List.ne_nil_of_mem (mem_tableStrings hi)
    obtain ⟨p, hp, rfl, rfl⟩ := hgrown.eq_of_follow hstrings hv
    obtain ⟨j, hj, rfl⟩ := List.mem_map.mp hp
    exact ⟨j, mem_tableSymbols.mp hj, rfl, rfl⟩

/-- **Which tables are decoded as they should be**: those with a symbol in which no code goes
on from that of an earlier symbol, and those that are rejected because one begins another that
is earlier.  Without any symbol the tree is the root, which is a leaf of no symbol. -/
theorem decodesPrefixFree_iff (lengths : UInt8 → UInt8) :
    DecodesPrefixFree lengths ↔
      (∃ i, lengths i ≠ 0) ∧ (ExtendsEarlier lengths → BeginsEarlier lengths) := by
  constructor
  · intro h
    refine ⟨?_, fun hextends => ?_⟩
    · -- a table without lengths gives a single leaf, whose code is empty
      by_contra hnone
      rw [not_exists_not] at hnone
      have hsyms : tableSymbols lengths = [] :=
        List.eq_nil_iff_forall_not_mem.mpr fun i hi => mem_tableSymbols.mp hi (hnone i)
      have hbuild : braHuffmanTreeBuildFromLengths lengths = some (leaf ⟨0, 0⟩) := by
        rw [buildFromLengths_eq, tableStrings, hsyms]
        rfl
      obtain ⟨i, hi, -⟩ := (h.exact_tree _ hbuild).eq_of_leaf [] ⟨0, 0⟩ rfl
      exact hi (hnone i)
    · by_contra hbegins
      have hsome := buildFromLengths_isSome_iff.mpr hbegins
      rw [h.rejects fun hfree => (prefixFree_iff.mp hfree).1 hextends] at hsome
      cases hsome
  · rintro ⟨hne, himp⟩
    by_cases hbegins : BeginsEarlier lengths
    · have hnone : braHuffmanTreeBuildFromLengths lengths = none := by
        rw [← Option.not_isSome_iff_eq_none, buildFromLengths_isSome_iff]
        exact not_not_intro hbegins
      refine ⟨fun _ => hnone, fun t ht => ?_⟩
      rw [hnone] at ht
      cases ht
    · have hfree : PrefixFree lengths := prefixFree_iff.mpr ⟨fun h => hbegins (himp h), hbegins⟩
      obtain ⟨t, ht, hexact⟩ := exactTree_of_prefixFree hfree hne
      refine ⟨fun h => absurd hfree h, fun t' ht' => ?_⟩
      obtain rfl := Option.some.inj (ht.symm.trans ht')
      exact hexact

/-- Two symbols with codes of one bit, and a third one for which there is no code left. -/
def crowdedLengths (i : UInt8) : UInt8 := if i = 0 ∨ i = 1 then 1 else if i = 2 then 2 else 0

/-- The third code goes on from the first, and the first symbol has no leaf any more. -/
theorem crowdedLengths_accepted :
    ¬ PrefixFree crowdedLengths ∧
      ∃ t, braHuffmanTreeBuildFromLengths crowdedLengths = some t ∧
        follow t (tableCode crowdedLengths 0) ≠ leaf ⟨0, 0⟩ := by
  have hcode : tableCode crowdedLengths 0 = [false] := by decide +kernel
  have hcode' : tableCode crowdedLengths 2 = [false, false] := by decide +kernel
  have hbuild : braHuffmanTreeBuildFromLengths crowdedLengths =
      some (.node ⟨0, 0⟩ (.node ⟨0, 0⟩ (leaf ⟨2, 0⟩) .nil) (leaf ⟨1, 0⟩)) := by decide +kernel
  refine ⟨fun hfree => ?_, _, hbuild, ?_⟩
  · have hpre := hfree 0 2 (by decide) (by decide) (by decide)
    rw [hcode, hcode'] at hpre
    exact hpre ⟨[false], rfl⟩
  · rw [hcode]
    simp [child, leaf]

end BrArchive
