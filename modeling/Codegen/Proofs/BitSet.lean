import Codegen.BitSet
import Mathlib.Data.Finset.Card
import Mathlib.Data.List.GetD

/-! Bit sets are finite sets of numbers. Every operation is followed on the bits of its
words, the visiting loop is the walk along the ascending list of members, and from these a
run of any edits on any number of sets represents the run on mathematical sets. -/
namespace Codegen.BitSet

def has (word : UInt64) (j : Nat) : Bool :=
  word.toBitVec.getLsbD j

@[simp] theorem has_zero (j : Nat) : has 0 j = false := by
  simp [has]

@[simp] theorem has_or (a b : UInt64) (j : Nat) : has (a ||| b) j = (has a j || has b j) := by
  simp [has]

theorem has_and (a b : UInt64) (j : Nat) : has (a &&& b) j = (has a j && has b j) := by
  simp [has]

@[simp] theorem has_clear (a b : UInt64) (j : Nat) :
    has (a &&& ~~~b) j = (has a j && !has b j) := by
  by_cases small : j < 64
  · simp [has, small]
  · simp [has, BitVec.getLsbD_of_ge _ _ (Nat.le_of_not_lt small)]

theorem has_bit {i : Nat} (small : i < 64) (j : Nat) : has (bit i) j = decide (j = i) := by
  have value : (bit i).toBitVec = BitVec.twoPow 64 i := by
    apply BitVec.eq_of_toNat_eq
    have : i % 18446744073709551616 = i := Nat.mod_eq_of_lt (by omega)
    simp [bit, this, Nat.mod_eq_of_lt small, Nat.shiftLeft_eq]
  simp [has, value, small, eq_comm]

theorem eq_of_has {a b : UInt64} (same : ∀ j < 64, has a j = has b j) : a = b :=
  UInt64.toBitVec_inj.mp (BitVec.eq_of_getLsbD_eq same)

theorem and_bit (word : UInt64) {j : Nat} (small : j < 64) :
    (word &&& bit j != 0) = has word j := by
  cases held : has word j with
  | false =>
    have zero : word &&& bit j = 0 := by
      apply eq_of_has
      intro i _
      by_cases same : i = j <;> simp [has_and, has_bit small, same, held]
    simp [zero]
  | true =>
    have nonzero : word &&& bit j ≠ 0 := by
      intro zero
      have := congrArg (has · j) zero
      simp [has_and, has_bit small, held] at this
    simpa using nonzero

theorem mod_lt_word (n : Nat) : n % 64 < 64 :=
  Nat.mod_lt n (by decide)

theorem contains_eq (s : BitSet) (n : Nat) :
    s.contains n = has (s.words.getD (n / 64) 0) (n % 64) :=
  and_bit _ (mod_lt_word n)

/-! ### Operations -/

@[simp] theorem getD_padded (count : Nat) (words : List UInt64) (i : Nat) :
    (padded count words).getD i 0 = words.getD i 0 := by
  simp only [padded, List.getD_eq_getElem?_getD, List.getElem?_append]
  split
  · rfl
  next beyond =>
    rw [List.getElem?_eq_none (Nat.le_of_not_lt beyond), List.getElem?_replicate]
    split <;> rfl

theorem length_padded (count : Nat) (words : List UInt64) :
    (padded count words).length = max count words.length := by
  simp only [padded, List.length_append, List.length_replicate]
  omega

theorem getD_modify (words : List UInt64) (change : UInt64 → UInt64) (i j : Nat)
    (there : i < words.length ∨ change 0 = 0) :
    (words.modify i change).getD j 0 =
      if i = j then change (words.getD j 0) else words.getD j 0 := by
  simp only [List.getD_eq_getElem?_getD, List.getElem?_modify]
  by_cases same : i = j
  · subst same
    rcases there with inside | zero
    · simp [inside]
    · cases words[i]? <;> simp [zero]
  · simp [same]

theorem contains_insert (s : BitSet) (n m : Nat) :
    (s.insert n).contains m = (decide (m = n) || s.contains m) := by
  have room : n / 64 < (padded (n / 64 + 1) s.words).length := by
    rw [length_padded]; omega
  simp only [contains_eq, insert, getD_modify _ _ _ _ (.inl room), getD_padded]
  split
  next word =>
    have same : m % 64 = n % 64 ↔ m = n := by omega
    simp [has_bit (mod_lt_word n), same, Bool.or_comm]
  next word =>
    have other : m ≠ n := by rintro rfl; exact word rfl
    simp [other]

theorem contains_erase (s : BitSet) (n m : Nat) :
    (s.erase n).contains m = (s.contains m && !decide (m = n)) := by
  have cleared := getD_modify s.words (· &&& ~~~(bit (n % 64))) (n / 64) (m / 64)
    (.inr UInt64.zero_and)
  simp only [contains_eq, erase, cleared]
  split
  next word =>
    have same : m % 64 = n % 64 ↔ m = n := by omega
    simp [has_bit (mod_lt_word n), same]
  next word =>
    have other : m ≠ n := by rintro rfl; exact word rfl
    simp [other]

theorem contains_of_zeros {s : BitSet} (zeros : ∀ word ∈ s.words, word = 0) (n : Nat) :
    s.contains n = false := by
  have word : s.words.getD (n / 64) 0 = 0 := by
    rw [List.getD_eq_getElem?_getD]
    cases found : s.words[n / 64]? with
    | none => rfl
    | some word => exact zeros word (List.mem_of_getElem? found)
  rw [contains_eq, word, has_zero]

/-- Words are combined one by one, those that are not there as zeros. -/
theorem getD_zipWith (combine : UInt64 → UInt64 → UInt64) {a b : List UInt64}
    (short : a.length ≤ b.length) (rest : ∀ i, a.length ≤ i → combine 0 (b.getD i 0) = 0)
    (i : Nat) : (a.zipWith combine b).getD i 0 = combine (a.getD i 0) (b.getD i 0) := by
  by_cases inside : i < a.length
  · have : i < b.length := Nat.lt_of_lt_of_le inside short
    simp [inside, this]
  · have beyond := Nat.le_of_not_lt inside
    rw [List.getD_eq_default _ _ beyond, rest i beyond, List.getD_eq_default]
    simp [beyond]

theorem contains_union (s t : BitSet) (n : Nat) :
    (s.union t).contains n = (s.contains n || t.contains n) := by
  have level : (padded t.words.length s.words).length =
      (padded s.words.length t.words).length := by
    rw [length_padded, length_padded, Nat.max_comm]
  have rest (i : Nat) (beyond : (padded t.words.length s.words).length ≤ i) :
      (0 : UInt64) ||| (padded s.words.length t.words).getD i 0 = 0 := by
    rw [List.getD_eq_default _ _ (level ▸ beyond), UInt64.or_zero]
  simp only [contains_eq, union, getD_zipWith (· ||| ·) level.le rest, getD_padded, has_or]

theorem contains_diff (s t : BitSet) (n : Nat) :
    (s.diff t).contains n = (s.contains n && !t.contains n) := by
  have short : s.words.length ≤ (padded s.words.length t.words).length := by
    rw [length_padded]; exact Nat.le_max_left ..
  have rest (i : Nat) (_ : s.words.length ≤ i) :
      (0 : UInt64) &&& ~~~(padded s.words.length t.words).getD i 0 = 0 := UInt64.zero_and
  simp only [contains_eq, diff, getD_zipWith (fun a b => a &&& ~~~b) short rest, getD_padded,
    has_clear]

theorem sameMembers_iff (s t : BitSet) :
    s.sameMembers t = true ↔ ∀ n, s.contains n = t.contains n := by
  rw [sameMembers, beq_iff_eq]
  constructor
  · intro same n
    rw [contains_eq, contains_eq, ← getD_padded t.words.length s.words, same, getD_padded]
  · intro same
    have words (i : Nat) : s.words.getD i 0 = t.words.getD i 0 := by
      apply eq_of_has
      intro j small
      have place : (i * 64 + j) / 64 = i ∧ (i * 64 + j) % 64 = j := by omega
      simpa only [contains_eq, place] using same (i * 64 + j)
    apply List.ext_getElem
    · rw [length_padded, length_padded, Nat.max_comm]
    · intro i left right
      rw [← List.getD_eq_getElem _ 0 left, ← List.getD_eq_getElem _ 0 right, getD_padded,
        getD_padded, words]

theorem withLength?_eq (length : Nat) :
    withLength? length =
      if 64 * maxWords < length then none
      else some ⟨List.replicate ((length + 63) / 64) 0, true⟩ := by
  have count : ((length : Int) + 63).tdiv 64 = ((length + 63) / 64 : Nat) := by
    rw [Int.tdiv_eq_ediv_of_nonneg (by omega)]
    omega
  by_cases long : 64 * maxWords < length
  · have beyond : ¬ (0 ≤ (((length + 63) / 64 : Nat) : Int) ∧
        (((length + 63) / 64 : Nat) : Int) ≤ maxWords) := by
      omega
    simp only [withLength?, count, if_neg beyond, if_pos long]
  · have room : 0 ≤ (((length + 63) / 64 : Nat) : Int) ∧
        (((length + 63) / 64 : Nat) : Int) ≤ maxWords := by
      omega
    simp only [withLength?, count, if_pos room, if_neg long, Int.toNat_natCast]

theorem ofList?_eq_ite (positions : List Int) :
    ofList? positions = if ∀ i ∈ positions, 0 ≤ i then
      some ((positions.map Int.toNat).foldl BitSet.insert ∅) else none := by
  have folded (s : BitSet) : positions.foldlM
      (fun s i => if 0 ≤ i then some (s.insert i.toNat) else none) s =
        if ∀ i ∈ positions, 0 ≤ i then some ((positions.map Int.toNat).foldl BitSet.insert s)
        else none := by
    induction positions generalizing s with
    | nil => rfl
    | cons i positions ih =>
      by_cases natural : 0 ≤ i
      · simp [natural, ih]
      · simp [natural]
  exact folded ∅

theorem ofList?_eq (positions : List Nat) :
    ofList? (positions.map Int.ofNat) = some (positions.foldl BitSet.insert ∅) := by
  rw [ofList?_eq_ite, if_pos (by simp), List.map_map]
  exact congrArg (fun ns => some (ns.foldl BitSet.insert ∅)) (List.map_id positions)

/-- Only a position below zero is refused. -/
theorem ofList?_eq_none_iff {positions : List Int} :
    ofList? positions = none ↔ ∃ i ∈ positions, i < 0 := by
  rw [ofList?_eq_ite]
  split <;> simp_all

theorem contains_foldl_insert (s : BitSet) (positions : List Nat) (n : Nat) :
    (positions.foldl BitSet.insert s).contains n = (decide (n ∈ positions) || s.contains n) := by
  induction positions generalizing s with
  | nil => simp
  | cons i positions ih =>
    rw [List.foldl_cons, ih, contains_insert]
    by_cases same : n = i <;> simp [same]

theorem contains_empty (n : Nat) : (∅ : BitSet).contains n = false :=
  contains_of_zeros (fun _ member => absurd member List.not_mem_nil) n

theorem contains_ofList? {positions : List Int} {s : BitSet} (made : ofList? positions = some s)
    (n : Nat) : s.contains n = true ↔ (n : Int) ∈ positions := by
  rw [ofList?_eq_ite] at made
  split at made
  next natural =>
    cases made
    simp only [contains_foldl_insert, contains_empty, Bool.or_false, decide_eq_true_eq,
      List.mem_map]
    constructor
    · rintro ⟨i, member, rfl⟩
      rwa [Int.toNat_of_nonneg (natural i member)]
    · intro member
      exact ⟨_, member, rfl⟩
  next => contradiction

/-! ### Visiting -/

theorem mem_bitsOf {word : UInt64} {j : Nat} : j ∈ bitsOf word ↔ j < 64 ∧ has word j = true := by
  rw [bitsOf, List.mem_filter, List.mem_range]
  exact and_congr_right fun small => by rw [and_bit word small]

theorem bitsOf_none {word : UInt64} (absent : lowest? word = none) : bitsOf word = [] :=
  List.filter_eq_nil_iff.mpr (List.find?_eq_none.mp absent)

theorem filter_of_find? {p : Nat → Bool} {xs : List Nat} {j : Nat} (distinct : xs.Nodup)
    (found : xs.find? p = some j) :
    xs.filter p = j :: xs.filter fun i => p i && !decide (i = j) := by
  induction xs with
  | nil => simp at found
  | cons x xs ih =>
    obtain ⟨fresh, distinct⟩ := List.nodup_cons.mp distinct
    by_cases held : p x
    · obtain rfl : x = j := by simpa [held] using found
      have other : xs.filter p = xs.filter fun i => p i && !decide (i = x) := by
        apply List.filter_congr
        intro i member
        have : i ≠ x := fun same => fresh (same ▸ member)
        simp [this]
      simp [held, other]
    · have later : xs.find? p = some j := by simpa [held] using found
      simp [held, ih distinct later]

/-- Clearing the lowest bit leaves the other ones. -/
theorem bitsOf_some {word : UInt64} {j : Nat} (found : lowest? word = some j) :
    bitsOf word = j :: bitsOf (word &&& ~~~(bit j)) := by
  have lowest : j < 64 := List.mem_range.mp (List.mem_of_find?_eq_some found)
  rw [bitsOf, filter_of_find? List.nodup_range found, bitsOf]
  congr 1
  apply List.filter_congr
  intro i member
  have small := List.mem_range.mp member
  rw [and_bit _ small, and_bit _ small, has_clear, has_bit lowest]

def membersFrom : Nat → List UInt64 → List Nat
  | _, [] => []
  | index, word :: words => (bitsOf word).map (index * 64 + ·) ++ membersFrom (index + 1) words

theorem mem_membersFrom {index : Nat} {words : List UInt64} {n : Nat} :
    n ∈ membersFrom index words ↔
      index ≤ n / 64 ∧ has (words.getD (n / 64 - index) 0) (n % 64) = true := by
  induction words generalizing index with
  | nil => simp [membersFrom]
  | cons word words ih =>
    have own : n ∈ (bitsOf word).map (index * 64 + ·) ↔
        n / 64 = index ∧ has word (n % 64) = true := by
      simp only [List.mem_map, mem_bitsOf]
      constructor
      · rintro ⟨j, ⟨small, held⟩, rfl⟩
        have : (index * 64 + j) / 64 = index ∧ (index * 64 + j) % 64 = j := by omega
        simpa only [this, true_and] using held
      · rintro ⟨rfl, held⟩
        exact ⟨n % 64, ⟨mod_lt_word n, held⟩, Nat.div_add_mod' n 64⟩
    rw [membersFrom, List.mem_append, own, ih]
    rcases Nat.lt_trichotomy (n / 64) index with before | here | after
    · have : ¬ index ≤ n / 64 ∧ ¬ index + 1 ≤ n / 64 ∧ n / 64 ≠ index := by omega
      simp [this]
    · simp [here]
    · have next : n / 64 - index = n / 64 - (index + 1) + 1 := by omega
      have : index ≤ n / 64 ∧ index + 1 ≤ n / 64 ∧ n / 64 ≠ index := by omega
      simp [this, next]

theorem pairwise_membersFrom (index : Nat) (words : List UInt64) :
    (membersFrom index words).Pairwise (· < ·) := by
  induction words generalizing index with
  | nil => exact .nil
  | cons word words ih =>
    have ascending : (bitsOf word).Pairwise (· < ·) := List.pairwise_lt_range.filter _
    refine List.pairwise_append.mpr ⟨ascending.map _ (by omega), ih (index + 1), ?_⟩
    intro n own m later
    obtain ⟨j, member, rfl⟩ := List.mem_map.mp own
    have small := (mem_bitsOf.mp member).1
    have beyond := (mem_membersFrom.mp later).1
    omega

theorem size_eq (s : BitSet) : s.size = (membersFrom 0 s.words).length := by
  have counted (index : Nat) (words : List UInt64) :
      (words.flatMap bitsOf).length = (membersFrom index words).length := by
    induction words generalizing index with
    | nil => rfl
    | cons word words ih => simp [membersFrom, ← ih (index + 1)]
  exact counted 0 s.words

/-- Asks for the numbers in turn, up to and including the first that is not accepted. -/
def asking (goOn : Nat → Nat → Bool) : Nat → List Nat → Bool × List Nat
  | _, [] => (true, [])
  | visited, x :: xs =>
    if goOn (visited + 1) x then
      let (all, rest) := asking goOn (visited + 1) xs
      (all, x :: rest)
    else (false, [x])

theorem visitWord_eq (goOn : Nat → Nat → Bool) (offset visited : Nat) (word : UInt64) :
    visitWord goOn offset visited word =
      asking goOn visited ((bitsOf word).map (offset + ·)) := by
  fun_induction visitWord goOn offset visited word with
  | case1 visited word absent => rw [bitsOf_none absent]; rfl
  | case2 visited word j found accepted all rest made ih =>
    rw [bitsOf_some found, List.map_cons, asking, if_pos accepted, ← ih, made]
  | case3 visited word j found refused =>
    rw [bitsOf_some found, List.map_cons, asking, if_neg refused]

theorem asking_append (goOn : Nat → Nat → Bool) (visited : Nat) (xs ys : List Nat) :
    (asking goOn visited (xs ++ ys)).2 =
      (asking goOn visited xs).2 ++
        if (asking goOn visited xs).1 then (asking goOn (visited + xs.length) ys).2 else [] := by
  induction xs generalizing visited with
  | nil => simp [asking]
  | cons x xs ih =>
    by_cases accepted : goOn (visited + 1) x
    · simp [asking, accepted, ih, Nat.add_assoc, Nat.add_comm 1]
    · simp [asking, accepted]

theorem asking_all {goOn : Nat → Nat → Bool} {visited : Nat} {xs : List Nat}
    (all : (asking goOn visited xs).1 = true) : (asking goOn visited xs).2 = xs := by
  induction xs generalizing visited with
  | nil => rfl
  | cons x xs ih =>
    by_cases accepted : goOn (visited + 1) x
    · simp only [asking, accepted, if_true] at all ⊢
      rw [ih all]
    · simp [asking, accepted] at all

theorem visitWords_eq (goOn : Nat → Nat → Bool) (index visited : Nat) (words : List UInt64) :
    visitWords goOn index visited words = (asking goOn visited (membersFrom index words)).2 := by
  induction words generalizing index visited with
  | nil => rfl
  | cons word words ih =>
    rw [visitWords, membersFrom, asking_append, visitWord_eq]
    rcases made : asking goOn visited ((bitsOf word).map (index * 64 + ·)) with ⟨all, seen⟩
    cases all with
    | false => simp
    | true =>
      have whole : (asking goOn visited ((bitsOf word).map (index * 64 + ·))).2 = _ :=
        asking_all (by rw [made])
      rw [made] at whole
      simp only [ih, if_true, ← whole]

theorem asking_always (visited : Nat) (xs : List Nat) :
    asking (fun _ _ => true) visited xs = (true, xs) := by
  induction xs generalizing visited with
  | nil => rfl
  | cons x xs ih => simp [asking, ih]

theorem toList_eq (s : BitSet) : s.toList = membersFrom 0 s.words := by
  rw [toList, visited, visitWords_eq, asking_always]

/-- The start of the members up to and including the first that is not accepted, if `before`
others have been visited. -/
structure Visits (goOn : Nat → Nat → Bool) (before : Nat) (members seen : List Nat) : Prop where
  start : seen <+: members
  accepted : ∀ k x, seen[k]? = some x → k + 1 < seen.length → goOn (before + k + 1) x = true
  refused : seen.length < members.length →
    ∃ x, seen.getLast? = some x ∧ goOn (before + seen.length) x = false

theorem visits_asking (goOn : Nat → Nat → Bool) (before : Nat) (members : List Nat) :
    Visits goOn before members (asking goOn before members).2 := by
  induction members generalizing before with
  | nil => exact ⟨List.prefix_refl _, by simp [asking], by simp [asking]⟩
  | cons x members ih =>
    by_cases accepted : goOn (before + 1) x
    · have rest := ih (before + 1)
      have seen : (asking goOn before (x :: members)).2 =
          x :: (asking goOn (before + 1) members).2 := by
        simp [asking, accepted]
      rw [seen]
      refine ⟨?_, ?_, ?_⟩
      · exact List.prefix_cons_inj x |>.mpr rest.start
      · intro k y found short
        cases k with
        | zero =>
          obtain rfl : x = y := by simpa using found
          exact accepted
        | succ k =>
          have := rest.accepted k y (by simpa using found) (by simpa using short)
          rwa [Nat.add_right_comm before] at this
      · intro short
        obtain ⟨y, last, refused⟩ := rest.refused (by simpa using short)
        refine ⟨y, ?_, ?_⟩
        · rw [List.getLast?_cons, last]; rfl
        · rw [List.length_cons, ← Nat.add_assoc, Nat.add_right_comm]
          exact refused
    · have seen : (asking goOn before (x :: members)).2 = [x] := by
        simp [asking, accepted]
      rw [seen]
      refine ⟨?_, by simp, ?_⟩
      · exact List.cons_prefix_cons.mpr ⟨rfl, List.nil_prefix⟩
      · exact fun _ => ⟨x, rfl, by simpa using accepted⟩

/-- A bit set is used as the set of numbers that it represents. -/
structure Represents (s : BitSet) (members : Finset Nat) : Prop where
  contains : ∀ n : Nat, s.containsAt? n = some (decide (n ∈ members))
  ascending : s.toList.Pairwise (· < ·)
  listed : ∀ n, n ∈ s.toList ↔ n ∈ members
  visited : ∀ goOn, Visits goOn 0 s.toList (s.visited goOn)
  size : s.size = members.card

theorem represents_of_contains {s : BitSet} {members : Finset Nat}
    (known : ∀ n, s.contains n = decide (n ∈ members)) : Represents s members := by
  have listed (n : Nat) : n ∈ s.toList ↔ n ∈ members := by
    rw [toList_eq, mem_membersFrom, Nat.sub_zero, ← contains_eq, known]
    simp
  have ascending : s.toList.Pairwise (· < ·) := toList_eq s ▸ pairwise_membersFrom 0 s.words
  refine ⟨?_, ascending, listed, ?_, ?_⟩
  · intro n
    simp [containsAt?, known]
  · intro goOn
    rw [toList_eq, BitSet.visited, visitWords_eq]
    exact visits_asking ..
  · have same : s.toList.toFinset = members := by
      ext n
      rw [List.mem_toFinset, listed]
    rw [size_eq, ← toList_eq, ← same, List.toFinset_card_of_nodup (ascending.imp Nat.ne_of_lt)]

/-! ### Runs of edits -/

inductive Edit where
  | make (target length : Nat)
  | collect (target : Nat) (positions : List Nat)
  | insert (target position : Nat)
  | erase (target position : Nat)
  | union (target other : Nat)
  | diff (target other : Nat)
  deriving DecidableEq, Repr

namespace Edit

def target : Edit → Nat
  | make target _ | collect target _ | insert target _ | erase target _ | union target _
  | diff target _ => target

def result? (sets : Nat → BitSet) : Edit → Option BitSet
  | make _ length => withLength? length
  | collect _ positions => ofList? (positions.map Int.ofNat)
  | insert target position =>
    let (accepted, s) := (sets target).insertAt position
    if accepted then some s else none
  | erase target position => (sets target).eraseAt? position
  | union target other => some ((sets target).union (sets other))
  | diff target other => some ((sets target).diff (sets other))

def run? (sets : Nat → BitSet) (edit : Edit) : Option (Nat → BitSet) :=
  (edit.result? sets).map (Function.update sets edit.target)

def runAll? (edits : List Edit) : Option (Nat → BitSet) :=
  edits.foldlM run? fun _ => unmade

def members (sets : Nat → Finset Nat) : Edit → Finset Nat
  | make _ _ => ∅
  | collect _ positions => positions.toFinset
  | insert target position => Insert.insert position (sets target)
  | erase target position => (sets target).erase position
  | union target other => sets target ∪ sets other
  | diff target other => sets target \ sets other

def apply (sets : Nat → Finset Nat) (edit : Edit) : Nat → Finset Nat :=
  Function.update sets edit.target (edit.members sets)

def applyAll (edits : List Edit) : Nat → Finset Nat :=
  edits.foldl apply fun _ => ∅

/-- No block of memory holds the words that are asked for. -/
def TooLong : Edit → Prop
  | make _ length => 64 * maxWords < length
  | _ => False

def Holds (sets : Nat → BitSet) (known : Nat → Finset Nat) : Prop :=
  ∀ name n, (sets name).contains n = decide (n ∈ known name)

variable {sets after : Nat → BitSet} {known : Nat → Finset Nat} {edit : Edit} {edits : List Edit}

theorem result?_eq_none_iff (edit : Edit) : edit.result? sets = none ↔ edit.TooLong := by
  cases edit with
  | make target length => simp [result?, TooLong, withLength?_eq]
  | collect target positions => simp [result?, TooLong, ofList?_eq]
  | insert | erase | union | diff => simp [result?, TooLong, insertAt, eraseAt?]

theorem Holds.result? (held : Holds sets known) {s : BitSet}
    (made : edit.result? sets = some s) (n : Nat) :
    s.contains n = decide (n ∈ edit.members known) := by
  cases edit with
  | make target length =>
    rw [Edit.result?, withLength?_eq] at made
    split at made
    · simp at made
    · obtain rfl := Option.some.inj made
      rw [contains_of_zeros fun word member => List.eq_of_mem_replicate member]
      simp [members]
  | collect target positions =>
    rw [Edit.result?, ofList?_eq] at made
    obtain rfl := Option.some.inj made
    have none := contains_empty n
    simp [contains_foldl_insert, none, members]
  | insert target position =>
    obtain rfl : (sets target).insert position = s := by
      simpa [Edit.result?, insertAt] using made
    simp [contains_insert, held _ _, members]
  | erase target position =>
    obtain rfl : (sets target).erase position = s := by
      simpa [Edit.result?, eraseAt?] using made
    simp [contains_erase, held _ _, members, Bool.and_comm]
  | union target other =>
    obtain rfl := Option.some.inj made
    simp [contains_union, held _ _, members]
  | diff target other =>
    obtain rfl := Option.some.inj made
    simp [contains_diff, held _ _, members]

theorem run?_eq_none_iff (edit : Edit) : edit.run? sets = none ↔ edit.TooLong := by
  rw [run?, Option.map_eq_none_iff, result?_eq_none_iff]

theorem Holds.run? (held : Holds sets known) (ran : edit.run? sets = some after) :
    Holds after (edit.apply known) := by
  intro name n
  obtain ⟨s, made, rfl⟩ := Option.map_eq_some_iff.mp ran
  by_cases own : name = edit.target
  · subst own
    simp [apply, held.result? made]
  · simp [apply, own, held name n]

theorem foldlM_run?_eq_none_iff (edits : List Edit) (sets : Nat → BitSet) :
    edits.foldlM run? sets = none ↔ ∃ edit ∈ edits, edit.TooLong := by
  induction edits generalizing sets with
  | nil => simp
  | cons edit edits ih =>
    rw [List.foldlM_cons]
    cases ran : edit.run? sets with
    | none => simp [(run?_eq_none_iff edit).mp ran]
    | some after =>
      have fits : ¬ edit.TooLong := by
        intro long
        rw [(run?_eq_none_iff edit).mpr long] at ran
        cases ran
      simp [ih, fits]

theorem Holds.foldlM (held : Holds sets known) (ran : edits.foldlM Edit.run? sets = some after) :
    Holds after (edits.foldl apply known) := by
  induction edits generalizing sets known with
  | nil =>
    obtain rfl := Option.some.inj ran
    exact held
  | cons edit edits ih =>
    rw [List.foldlM_cons] at ran
    obtain ⟨next, first, rest⟩ := Option.bind_eq_some_iff.mp ran
    exact ih (held.run? first) rest

/-- Whatever the edits, every set is used as the set of numbers that the same insertions,
removals, unions and differences give, an edit changes no set but its target, and a run stops
only where no memory can be had. -/
theorem runAll?_represents (edits : List Edit) :
    (runAll? edits = none ↔ ∃ edit ∈ edits, edit.TooLong) ∧
    ∀ sets, runAll? edits = some sets →
      (∀ name, Represents (sets name) (applyAll edits name)) ∧
      (∀ name other, (sets name).sameMembers (sets other) = true ↔
        applyAll edits name = applyAll edits other) ∧
      ∀ (edit : Edit) (after : Nat → BitSet), edit.run? sets = some after →
        ∀ name, name ≠ edit.target → after name = sets name := by
  refine ⟨foldlM_run?_eq_none_iff edits _, ?_⟩
  intro sets ran
  have empty : Holds (fun _ => unmade) fun _ => ∅ := by
    intro name n
    simp [contains_of_zeros, unmade]
  have held := empty.foldlM ran
  refine ⟨fun name => represents_of_contains (held name), ?_, ?_⟩
  · intro name other
    rw [sameMembers_iff, Finset.ext_iff]
    apply forall_congr'
    intro n
    rw [held name n, held other n, decide_eq_decide, applyAll]
  · intro edit after changed name other
    obtain ⟨s, _, rfl⟩ := Option.map_eq_some_iff.mp changed
    exact Function.update_of_ne other s sets

/-- One set ends in a word that has lost its only member, the other one was made with room. -/
def trailing : List Edit :=
  [.make 0 130, .insert 0 63, .insert 0 64, .collect 1 [200, 64], .erase 1 200, .insert 2 63,
    .diff 0 2, .union 3 1]

theorem runAll?_represents_trailing :
    ∃ sets, runAll? trailing = some sets ∧ (sets 0).words.length ≠ (sets 1).words.length ∧
      (sets 0).sameMembers (sets 1) = true ∧ Represents (sets 3) {64} := by
  have represents := (runAll?_represents trailing).2 _ rfl
  refine ⟨_, rfl, by decide, ?_, ?_⟩
  · exact (represents.2.1 0 1).mpr (by decide)
  · have only : applyAll trailing 3 = {64} := by decide
    exact only ▸ represents.1 3

end Edit

end Codegen.BitSet
