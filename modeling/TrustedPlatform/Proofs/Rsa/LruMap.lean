import Mathlib.Data.List.Nodup
import TrustedPlatform.Rsa.Cache

/-!
# Least-recently-used maps

The reference that a cache of derived parts is measured against: a bounded map whose items are
listed from the one used last to the one that was not used for longest. A map that was filled by
calls lists its keys in the order of the last calls for them, and maps each key to the parts of the
latest call that added it.
-/

namespace TrustedPlatform.Rsa

/-! ### The reference -/

/-- A bounded map that lists its items from the one used last to the one not used for longest. -/
structure LruMap where
  items : List (CacheKey × DerivedParts)
  capacity : Nat

namespace LruMap

/-- An empty map for a number of items. -/
def withCapacity (capacity : Nat) : LruMap :=
  ⟨[], capacity⟩

/-- The keys of the items. -/
def keys (map : LruMap) : List CacheKey :=
  map.items.map Prod.fst

/-- The items of all keys but one. -/
def others (map : LruMap) (key : CacheKey) : List (CacheKey × DerivedParts) :=
  map.items.filter fun item => item.1 ≠ key

/-- What a key is mapped to, and the map with the key used last. -/
def find (map : LruMap) (key : CacheKey) : Option DerivedParts × LruMap :=
  match map.items.lookup key with
  | some parts => (some parts, { map with items := (key, parts) :: map.others key })
  | none => (none, map)

/-- The map with a key mapped to parts and used last; of the other items only the first stay when
the map has no room for all. -/
def add (map : LruMap) (key : CacheKey) (parts : DerivedParts) : LruMap :=
  { map with items := (key, parts) :: (map.others key).take (map.capacity - 1) }

/-- The map without items. -/
def clear (map : LruMap) : LruMap :=
  { map with items := [] }

/-- A map has no two items of one key, and no more items than its capacity, which is not zero. -/
structure WellFormed (map : LruMap) : Prop where
  keys_nodup : map.keys.Nodup
  length_le : map.items.length ≤ map.capacity
  capacity_pos : 0 < map.capacity

end LruMap

/-! ### Calls -/

/-- A call on a cache, with all its arguments. -/
inductive CacheCall where
  | add (prime modulus : Bytes) (exponent : UInt32) (parts : DerivedParts)
  | find (prime modulus : Bytes) (exponent : UInt32)
  | clear

namespace CacheCall

/-- The key that a call adds or looks for. -/
def key? : CacheCall → Option CacheKey
  | add prime modulus exponent _ => some (.of prime modulus exponent)
  | find prime modulus exponent => some (.of prime modulus exponent)
  | clear => none

/-- The parts that a call adds for a key. -/
def added? (key : CacheKey) : CacheCall → Option DerivedParts
  | add prime modulus exponent parts => if .of prime modulus exponent = key then some parts else none
  | find .. => none
  | clear => none

/-- The answer of the reference to a call, and the map after it. -/
def performOn (map : LruMap) : CacheCall → Option DerivedParts × LruMap
  | add prime modulus exponent parts => (none, map.add (.of prime modulus exponent) parts)
  | find prime modulus exponent => map.find (.of prime modulus exponent)
  | clear => (none, map.clear)

/-- The answers to calls made one after the other, and the state after them. -/
def serve {σ : Type} (perform : σ → CacheCall → Option DerivedParts × σ) (state : σ) :
    List CacheCall → List (Option DerivedParts) × σ
  | [] => ([], state)
  | call :: rest =>
      let first := perform state call
      let later := serve perform first.2 rest
      (first.1 :: later.1, later.2)

/-- The number of calls made since the last one for a key; the calls are listed latest first. -/
def since (key : CacheKey) (past : List CacheCall) : Nat :=
  past.findIdx fun call => call.key? == some key

/-- The parts of the latest call that added a key; the calls are listed latest first. -/
def latestAdd? (key : CacheKey) (past : List CacheCall) : Option DerivedParts :=
  past.findSome? (added? key)

variable {call : CacheCall} {past : List CacheCall} {key : CacheKey}

/-- A call for one key leaves the others in their order, one call later. -/
theorem since_cons_of_ne (h : call.key? ≠ some key) :
    since key (call :: past) = since key past + 1 := by
  rw [since, List.findIdx_cons, beq_eq_false_iff_ne.mpr h]
  rfl

/-- No call was made since one for the key. -/
theorem since_cons_self (h : call.key? = some key) :
    since key (call :: past) = 0 := by
  simp [since, List.findIdx_cons, h]

/-- A call that does not add a key leaves what was last added for it. -/
theorem latestAdd?_cons_of_none (h : call.added? key = none) :
    latestAdd? key (call :: past) = latestAdd? key past := by
  simp [latestAdd?, h]

/-- A call adds parts for no key but its own. -/
theorem added?_eq_none (h : call.key? ≠ some key) : call.added? key = none := by
  cases call <;> simp_all [key?, added?]

end CacheCall

/-! ### The reference keeps its form -/

namespace LruMap

variable {map : LruMap} {key : CacheKey} {parts : DerivedParts}

@[simp] theorem mem_others {item : CacheKey × DerivedParts} :
    item ∈ map.others key ↔ item ∈ map.items ∧ item.1 ≠ key := by
  simp [others]

/-- A key has one item only. -/
theorem not_mem_of_items (h : map.keys.Nodup) {front back : List (CacheKey × DerivedParts)}
    (hitems : map.items = front ++ (key, parts) :: back) :
    key ∉ front.map Prod.fst ∧ key ∉ back.map Prod.fst := by
  simp only [keys, hitems, List.map_append, List.map_cons, List.nodup_append, List.nodup_cons] at h
  exact ⟨fun hmem => h.2.2 _ hmem _ (List.mem_cons_self ..) rfl, h.2.1.1⟩

/-- Items without a key are those of other keys. -/
theorem filter_ne_of_not_mem {items : List (CacheKey × DerivedParts)}
    (h : key ∉ items.map Prod.fst) : items.filter (fun item => item.1 ≠ key) = items := by
  refine List.filter_eq_self.mpr fun item hitem => decide_eq_true fun heq => ?_
  exact h (heq ▸ List.mem_map_of_mem hitem)

/-- The items around the one of a key are those of the other keys. -/
theorem others_eq_append (h : map.keys.Nodup) {front back : List (CacheKey × DerivedParts)}
    (hitems : map.items = front ++ (key, parts) :: back) : map.others key = front ++ back := by
  have hkeys := not_mem_of_items h hitems
  rw [others, hitems, List.filter_append, List.filter_cons_of_neg (by simp),
    filter_ne_of_not_mem hkeys.1, filter_ne_of_not_mem hkeys.2]

/-- The parts of a key are those of its item. -/
theorem lookup_eq_some (h : map.keys.Nodup) {front back : List (CacheKey × DerivedParts)}
    (hitems : map.items = front ++ (key, parts) :: back) : map.items.lookup key = some parts := by
  refine List.lookup_eq_some_iff.mpr ⟨front, back, hitems, fun item hitem => ?_⟩
  refine bne_iff_ne.mpr fun heq => (not_mem_of_items h hitems).1 ?_
  exact heq ▸ List.mem_map_of_mem hitem

/-- What is found for a key is one of the items. -/
theorem exists_append_of_lookup (h : map.items.lookup key = some parts) :
    ∃ front back, map.items = front ++ (key, parts) :: back := by
  obtain ⟨front, back, hitems, -⟩ := List.lookup_eq_some_iff.mp h
  exact ⟨front, back, hitems⟩

/-- A key without an item has no parts. -/
theorem lookup_eq_none_iff : map.items.lookup key = none ↔ key ∉ map.keys := by
  simp only [List.lookup_eq_none_iff, keys, List.mem_map, not_exists, not_and, bne_iff_ne, ne_eq,
    eq_comm (a := key)]

/-- What is found for a key is the item of the key, which is then the first one. -/
theorem exists_of_find_eq_some (h : (map.find key).1 = some parts) :
    (key, parts) ∈ map.items ∧ ∃ rest, (map.find key).2.items = (key, parts) :: rest := by
  rw [find] at h ⊢
  split at h
  case h_1 stored hstored =>
    cases h
    obtain ⟨front, back, hitems⟩ := exists_append_of_lookup hstored
    exact ⟨by simp [hitems], _, rfl⟩
  case h_2 => cases h

/-- The first item is found. -/
theorem find_of_items_eq {rest : List (CacheKey × DerivedParts)}
    (h : map.items = (key, parts) :: rest) : (map.find key).1 = some parts := by
  rw [find, h, List.lookup_cons_self]

/-- Looking for a key adds no item. -/
theorem mem_of_mem_find {item : CacheKey × DerivedParts} (h : item ∈ (map.find key).2.items) :
    item ∈ map.items := by
  rw [find] at h
  split at h
  case h_1 stored hstored =>
    obtain ⟨front, back, hitems⟩ := exists_append_of_lookup hstored
    rcases List.mem_cons.mp h with rfl | hmem
    · simp [hitems]
    · exact (mem_others.mp hmem).1
  case h_2 => exact h

/-- Adding a key adds no other item. -/
theorem mem_of_mem_add {item : CacheKey × DerivedParts} (h : item ∈ (map.add key parts).items) :
    item = (key, parts) ∨ item ∈ map.items :=
  (List.mem_cons.mp h).imp_right fun hmem => (mem_others.mp (List.mem_of_mem_take hmem)).1

/-- Looking for a key keeps all keys. -/
theorem mem_keys_find {other : CacheKey} : other ∈ (map.find key).2.keys ↔ other ∈ map.keys := by
  rw [find]
  split
  case h_1 parts hparts =>
    obtain ⟨front, back, hitems⟩ := exists_append_of_lookup hparts
    obtain rfl | hne := eq_or_ne other key
    · simp [keys, hitems]
    · simp [keys, others, hne]
  case h_2 => exact Iff.rfl

/-- The first items have a key exactly when its item is one of them. -/
theorem mem_keys_take (h : map.keys.Nodup) {front back : List (CacheKey × DerivedParts)}
    (hitems : map.items = front ++ (key, parts) :: back) (n : Nat) :
    key ∈ (map.items.take n).map Prod.fst ↔ front.length < n := by
  rw [hitems, List.take_append, List.map_append, List.mem_append]
  constructor
  · intro hmem
    by_contra hle
    rw [Nat.sub_eq_zero_of_le (by omega), List.take_zero, List.map_nil] at hmem
    exact (not_mem_of_items h hitems).1
      (((List.take_sublist _ _).map _).subset (hmem.resolve_right List.not_mem_nil))
  · intro hlt
    obtain ⟨m, hm⟩ := Nat.exists_eq_succ_of_ne_zero (Nat.sub_ne_zero_of_lt hlt)
    exact .inr (by simp [hm])

/-- Adding a key keeps the others, unless it is new, the map is full and the other key is the one of
the last item. -/
theorem mem_keys_add (h : map.WellFormed) {other : CacheKey} {stored : DerivedParts}
    {front back : List (CacheKey × DerivedParts)}
    (hitems : map.items = front ++ (other, stored) :: back) :
    other ∈ (map.add key parts).keys ↔ ¬(key ∉ map.keys ∧
      map.items.length = map.capacity ∧ front.length + 1 = map.items.length) := by
  have hle := h.length_le
  have hplace : front.length + 1 ≤ map.items.length := by simp [hitems]
  have hadd : (map.add key parts).keys
      = key :: ((map.others key).take (map.capacity - 1)).map Prod.fst := rfl
  rw [hadd, List.mem_cons]
  by_cases hkey : key ∈ map.keys
  · -- the item of the key leaves enough room
    obtain ⟨item, hitem, rfl⟩ := List.mem_map.mp hkey
    obtain ⟨before, after, haround⟩ := List.append_of_mem hitem
    have hroom : (map.others item.1).length ≤ map.capacity - 1 := by
      rw [others_eq_append h.keys_nodup haround]
      simp [haround] at hle ⊢
      omega
    rw [List.take_of_length_le hroom]
    refine iff_of_true ?_ fun hdrop => hdrop.1 hkey
    refine or_iff_not_imp_left.mpr fun hne => List.mem_map.mpr ⟨(other, stored), ?_, rfl⟩
    exact mem_others.mpr ⟨by simp [hitems], hne⟩
  · have hne : other ≠ key := by
      rintro rfl
      exact hkey (by simp [keys, hitems])
    rw [others, filter_ne_of_not_mem hkey, mem_keys_take h.keys_nodup hitems]
    simp only [hne, false_or, hkey, not_false_eq_true, true_and]
    omega

/-- A key may go in front of some of the other items. -/
theorem WellFormed.keys_cons_nodup (h : map.WellFormed) {l : List (CacheKey × DerivedParts)}
    (hl : l.Sublist (map.others key)) : (key :: l.map Prod.fst).Nodup := by
  refine List.nodup_cons.mpr ⟨?_, ?_⟩
  · intro hmem
    obtain ⟨item, hitem, heq⟩ := List.mem_map.mp hmem
    exact (mem_others.mp (hl.subset hitem)).2 heq
  · exact h.keys_nodup.sublist ((hl.trans List.filter_sublist).map _)

namespace WellFormed

/-- Looking for a key keeps the form. -/
theorem find (h : map.WellFormed) (key : CacheKey) : (map.find key).2.WellFormed := by
  rw [LruMap.find]
  split
  case h_1 parts hparts =>
    obtain ⟨front, back, hitems⟩ := exists_append_of_lookup hparts
    refine ⟨h.keys_cons_nodup (List.Sublist.refl _), ?_, h.capacity_pos⟩
    have := h.length_le
    simp only [others_eq_append h.keys_nodup hitems, hitems, List.length_append,
      List.length_cons] at this ⊢
    omega
  case h_2 => exact h

/-- Adding a key keeps the form. -/
theorem add (h : map.WellFormed) (key : CacheKey) (parts : DerivedParts) :
    (map.add key parts).WellFormed := by
  refine ⟨h.keys_cons_nodup (List.take_sublist _ _), ?_, h.capacity_pos⟩
  have := h.capacity_pos
  simp only [LruMap.add, List.length_cons, List.length_take]
  omega

/-- Every call keeps the form. -/
theorem performOn (h : map.WellFormed) (call : CacheCall) : (call.performOn map).2.WellFormed := by
  cases call with
  | add prime modulus exponent parts => exact h.add _ parts
  | find prime modulus exponent => exact h.find _
  | clear => exact ⟨List.nodup_nil, Nat.zero_le _, h.capacity_pos⟩

end WellFormed

/-- No call changes the capacity. -/
theorem capacity_performOn (map : LruMap) (call : CacheCall) :
    (call.performOn map).2.capacity = map.capacity := by
  cases call with
  | add | clear => rfl
  | find prime modulus exponent =>
      rw [CacheCall.performOn, find]
      split <;> rfl

/-- An empty map has the form of a map. -/
theorem wellFormed_withCapacity {capacity : Nat} (h : 0 < capacity) :
    (withCapacity capacity).WellFormed :=
  ⟨List.nodup_nil, Nat.zero_le _, h⟩

end LruMap

/-! ### The reference and the calls that led to it -/

namespace LruMap

/-- The items of a map are listed by the last call for their key, and have the parts last added. -/
structure Follows (map : LruMap) (past : List CacheCall) : Prop where
  byLastCall : map.items.Pairwise fun a b => CacheCall.since a.1 past < CacheCall.since b.1 past
  latest : ∀ item ∈ map.items, CacheCall.latestAdd? item.1 past = some item.2

namespace Follows

variable {map : LruMap} {past : List CacheCall} {call : CacheCall}

/-- Items of other keys than that of a call are as they were before it. -/
theorem of_sublist (h : map.Follows past) {l : List (CacheKey × DerivedParts)}
    (hl : l.Sublist map.items) (hkey : ∀ item ∈ l, call.key? ≠ some item.1) :
    Follows ⟨l, map.capacity⟩ (call :: past) := by
  constructor
  · refine (h.byLastCall.sublist hl).imp_of_mem fun ha hb hlt => ?_
    rw [CacheCall.since_cons_of_ne (hkey _ ha), CacheCall.since_cons_of_ne (hkey _ hb)]
    omega
  · intro item hitem
    rw [CacheCall.latestAdd?_cons_of_none (CacheCall.added?_eq_none (hkey item hitem))]
    exact h.latest item (hl.subset hitem)

/-- The item of the key of a call goes in front of the others. -/
theorem cons (h : map.Follows past) {key : CacheKey} {parts : DerivedParts}
    {l : List (CacheKey × DerivedParts)} (hl : l.Sublist (map.others key))
    (hkey : call.key? = some key)
    (hparts : CacheCall.latestAdd? key (call :: past) = some parts) :
    Follows ⟨(key, parts) :: l, map.capacity⟩ (call :: past) := by
  have hne : ∀ item ∈ l, call.key? ≠ some item.1 := by
    intro item hitem heq
    exact (mem_others.mp (hl.subset hitem)).2 (Option.some.inj (heq.symm.trans hkey))
  have hrest := h.of_sublist (hl.trans List.filter_sublist) hne
  constructor
  · refine List.pairwise_cons.mpr ⟨fun item hitem => ?_, hrest.byLastCall⟩
    rw [CacheCall.since_cons_self hkey, CacheCall.since_cons_of_ne (hne item hitem)]
    omega
  · exact List.forall_mem_cons.mpr ⟨hparts, hrest.latest⟩

/-- The items follow one more call. -/
theorem performOn (h : map.Follows past) (call : CacheCall) :
    (call.performOn map).2.Follows (call :: past) := by
  cases call with
  | add prime modulus exponent parts =>
      exact h.cons (List.take_sublist _ _) rfl (by simp [CacheCall.latestAdd?, CacheCall.added?])
  | find prime modulus exponent =>
      rw [CacheCall.performOn, LruMap.find]
      split
      case h_1 parts hparts =>
        refine h.cons (List.Sublist.refl _) rfl ?_
        obtain ⟨front, back, hitems⟩ := exists_append_of_lookup hparts
        rw [CacheCall.latestAdd?_cons_of_none rfl]
        exact h.latest (CacheKey.of prime modulus exponent, parts) (by simp [hitems])
      case h_2 hnone =>
        refine h.of_sublist (List.Sublist.refl _) fun item hitem heq => ?_
        have := List.lookup_eq_none_iff.mp hnone item hitem
        simp [CacheCall.key?] at heq this
        exact this heq
  | clear => exact h.of_sublist (List.nil_sublist _) (by simp)

end Follows

/-- What is found for a key of the map was last added for it. -/
theorem Follows.find_eq {map : LruMap} {past : List CacheCall} (h : map.Follows past)
    (key : CacheKey) :
    (map.find key).1 = if key ∈ map.keys then CacheCall.latestAdd? key past else none := by
  rw [LruMap.find]
  split
  case h_1 parts hparts =>
    obtain ⟨front, back, hitems⟩ := exists_append_of_lookup hparts
    rw [if_pos (by simp [keys, hitems]), h.latest (key, parts) (by simp [hitems])]
  case h_2 hnone => rw [if_neg (lookup_eq_none_iff.mp hnone)]

/-- An empty map follows no calls. -/
theorem follows_withCapacity (capacity : Nat) : (withCapacity capacity).Follows [] :=
  ⟨List.Pairwise.nil, by simp [withCapacity]⟩

end LruMap

end TrustedPlatform.Rsa
