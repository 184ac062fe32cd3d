import Mathlib.Data.List.Perm.Basic
import TrustedPlatform.Proofs.Bytes
import TrustedPlatform.Proofs.Rsa.LruMap

/-!
# The cache is a least-recently-used map

The entries of the cache are a permutation of the items of a least-recently-used map, each with its
place in the list of items as its age, and every call keeps it so. Hence the cache gives the answers
of the map, and the entry it drops for a new key is the one whose last use is longest ago. The main
theorem is `leastRecentlyUsed`.
-/

namespace TrustedPlatform.Rsa

/-- The answer of a cache to a call, and the cache after it. -/
def CacheCall.perform (cache : ExponentCache) : CacheCall → Option DerivedParts × ExponentCache
  | add prime modulus exponent parts => (none, cache.add (.of prime modulus exponent) parts)
  | find prime modulus exponent => cache.find (.of prime modulus exponent)
  | clear => (none, cache.clear)

/-! ### Entries and items -/

namespace CacheEntry

/-- The entries for items listed by recency, the first of them of a given age. -/
def agedFrom (age : Nat) : List (CacheKey × DerivedParts) → List CacheEntry
  | [] => []
  | (key, parts) :: rest => ⟨age, key, parts⟩ :: agedFrom (age + 1) rest

/-- An entry matches its own key only. -/
@[simp] theorem matchesKey_iff (entry : CacheEntry) (key : CacheKey) :
    entry.matchesKey key = true ↔ entry.key = key := by
  obtain ⟨age, ⟨prime, modulus, exponent⟩, parts⟩ := entry
  obtain ⟨prime', modulus', exponent'⟩ := key
  simp [matchesKey]
  tauto

@[simp] theorem length_agedFrom (age : Nat) (items : List (CacheKey × DerivedParts)) :
    (agedFrom age items).length = items.length := by
  induction items generalizing age with
  | nil => rfl
  | cons item rest ih => simp [agedFrom, ih]

theorem agedFrom_append (age : Nat) (front back : List (CacheKey × DerivedParts)) :
    agedFrom age (front ++ back) = agedFrom age front ++ agedFrom (age + front.length) back := by
  induction front generalizing age with
  | nil => rfl
  | cons item rest ih => simp [agedFrom, ih, Nat.add_assoc, Nat.add_comm 1]

theorem map_key_agedFrom (age : Nat) (items : List (CacheKey × DerivedParts)) :
    (agedFrom age items).map (·.key) = items.map Prod.fst := by
  induction items generalizing age with
  | nil => rfl
  | cons item rest ih => simp [agedFrom, ih]

theorem map_age_agedFrom (age : Nat) (items : List (CacheKey × DerivedParts)) :
    (agedFrom age items).map (·.age) = List.range' age items.length := by
  induction items generalizing age with
  | nil => rfl
  | cons item rest ih => simp [agedFrom, ih, List.range'_succ]

theorem map_older_agedFrom (age : Nat) (items : List (CacheKey × DerivedParts)) :
    (agedFrom age items).map older = agedFrom (age + 1) items := by
  induction items generalizing age with
  | nil => rfl
  | cons item rest ih => simp [agedFrom, ih, older]

/-- The age of an entry tells its place in the list. -/
theorem mem_agedFrom {entry : CacheEntry} {age : Nat} {items : List (CacheKey × DerivedParts)} :
    entry ∈ agedFrom age items ↔ ∃ front back,
      items = front ++ (entry.key, entry.parts) :: back ∧ entry.age = age + front.length := by
  induction items generalizing age with
  | nil => simp [agedFrom]
  | cons item rest ih =>
      obtain ⟨age', key, parts⟩ := entry
      simp only [agedFrom, List.mem_cons, ih, CacheEntry.mk.injEq]
      constructor
      · rintro (⟨rfl, rfl, rfl⟩ | ⟨front, back, rfl, rfl⟩)
        · exact ⟨[], rest, rfl, rfl⟩
        · exact ⟨item :: front, back, rfl, by simp [Nat.add_assoc, Nat.add_comm 1]⟩
      · rintro ⟨_ | ⟨head, front⟩, back, hitems, hage⟩
        · obtain ⟨rfl, rfl⟩ := List.cons.inj hitems
          exact .inl ⟨hage, rfl, rfl⟩
        · obtain ⟨rfl, rfl⟩ := List.cons.inj hitems
          exact .inr ⟨front, back, rfl, by simp at hage; omega⟩

end CacheEntry

namespace ExponentCache

open CacheEntry (agedFrom)

/-- The keys of the entries. -/
def keys (cache : ExponentCache) : List CacheKey :=
  cache.entries.map (·.key)

/-- The entries of a cache are the items of a map, each with its place among them as its age. -/
structure Represents (cache : ExponentCache) (map : LruMap) : Prop where
  capacity : cache.capacity = map.capacity
  entries : cache.entries.Perm (agedFrom 0 map.items)

/-! ### Operations on the table -/

/-- Entries that are older than the one used keep their age. -/
theorem agedBelow_of_le {old age : Nat} (h : old ≤ age) (items : List (CacheKey × DerivedParts)) :
    agedBelow old (agedFrom age items) = agedFrom age items := by
  rw [agedBelow, List.map_congr_left, List.map_id']
  intro entry hentry
  obtain ⟨front, back, -, hage⟩ := CacheEntry.mem_agedFrom.mp hentry
  exact if_neg (by omega)

/-- Entries that are younger than the one used are one step older. -/
theorem agedBelow_of_length_le {old age : Nat} {items : List (CacheKey × DerivedParts)}
    (h : age + items.length ≤ old) :
    agedBelow old (agedFrom age items) = agedFrom (age + 1) items := by
  rw [← CacheEntry.map_older_agedFrom, agedBelow, List.map_congr_left]
  intro entry hentry
  obtain ⟨front, back, rfl, hage⟩ := CacheEntry.mem_agedFrom.mp hentry
  exact if_pos (by simp at h; omega)

/-- The other entries, when one of them is known by its place in the table. -/
theorem eraseIdx_perm {entries : List CacheEntry} {items : List (CacheKey × DerivedParts)}
    (h : entries.Perm (agedFrom 0 items)) {i : Nat} {entry : CacheEntry}
    (hentry : entries[i]? = some entry) :
    ∃ front back, items = front ++ (entry.key, entry.parts) :: back ∧ entry.age = front.length ∧
      (entries.eraseIdx i).Perm (agedFrom 0 front ++ agedFrom (entry.age + 1) back) := by
  obtain ⟨hi, rfl⟩ := List.getElem?_eq_some_iff.mp hentry
  obtain ⟨front, back, rfl, hage⟩ :=
    CacheEntry.mem_agedFrom.mp (h.subset (List.getElem_mem hi))
  refine ⟨front, back, rfl, by omega, List.Perm.cons_inv (a := entries[i]) ?_⟩
  calc
    entries[i] :: entries.eraseIdx i
    _ |>.Perm entries := List.getElem_cons_eraseIdx_perm hi
    _ |>.Perm (agedFrom 0 (front ++ (entries[i].key, entries[i].parts) :: back)) := h
    _ |>.Perm (entries[i] :: (agedFrom 0 front ++ agedFrom (entries[i].age + 1) back)) := by
      rw [CacheEntry.agedFrom_append, agedFrom, ← hage]
      exact List.perm_middle

/-- Using an entry moves its item in front of the others. -/
theorem touch_perm {entries : List CacheEntry} {i : Nat} {entry : CacheEntry}
    {front back : List (CacheKey × DerivedParts)} (hentry : entries[i]? = some entry)
    (hage : entry.age = front.length)
    (h : (entries.eraseIdx i).Perm (agedFrom 0 front ++ agedFrom (entry.age + 1) back)) :
    (touch i entries).Perm (agedFrom 0 ((entry.key, entry.parts) :: (front ++ back))) := by
  have hi : i < (agedBelow entry.age entries).length := by
    simpa [agedBelow] using (List.getElem?_eq_some_iff.mp hentry).1
  have haged : (agedBelow entry.age entries).eraseIdx i
      = agedBelow entry.age (entries.eraseIdx i) := by
    rw [agedBelow, agedBelow, List.eraseIdx_map]
  calc
    touch i entries
    _ = (agedBelow entry.age entries).set i { entry with age := 0 } := by rw [touch, hentry]
    _ |>.Perm ({ entry with age := 0 } :: agedBelow entry.age (entries.eraseIdx i)) := by
      rw [← haged]
      exact List.set_perm_cons_eraseIdx hi _
    _ |>.Perm ({ entry with age := 0 } ::
        agedBelow entry.age (agedFrom 0 front ++ agedFrom (entry.age + 1) back)) :=
      (h.map _).cons _
    _ = agedFrom 0 ((entry.key, entry.parts) :: (front ++ back)) := by
      rw [agedBelow, List.map_append, ← agedBelow, ← agedBelow,
        agedBelow_of_length_le (by omega), agedBelow_of_le (by omega), agedFrom,
        CacheEntry.agedFrom_append, hage, Nat.add_comm front.length]

/-- The entry used is the youngest one. -/
theorem getElem?_touch {entries : List CacheEntry} {i : Nat} {entry : CacheEntry}
    (hentry : entries[i]? = some entry) :
    (touch i entries)[i]? = some { entry with age := 0 } := by
  have hi := (List.getElem?_eq_some_iff.mp hentry).1
  simp only [touch, hentry]
  exact List.getElem?_set_self (by simpa [agedBelow] using hi)

/-- Looking for a key without an entry changes nothing. -/
theorem find_snd_of_none {cache : ExponentCache} {key : CacheKey}
    (h : (cache.find key).1 = none) : (cache.find key).2 = cache := by
  rw [find] at h ⊢
  split at h
  case h_1 i hplace =>
    obtain ⟨hi, -⟩ := List.findIdx?_eq_some_iff_getElem.mp hplace
    simp [getElem?_touch (List.getElem?_eq_getElem hi)] at h
  case h_2 hplace => rfl

/-- Removing an entry reorders the others. -/
theorem swapRemove_perm {entries : List CacheEntry} {i : Nat} (h : i < entries.length) :
    (swapRemove i entries).Perm (entries.eraseIdx i) := by
  obtain rfl | ⟨front, last, rfl⟩ := entries.eq_nil_or_concat'
  · exact absurd h (Nat.not_lt_zero i)
  rw [swapRemove, List.getLast?_concat]
  dsimp only
  obtain hi | rfl : i < front.length ∨ i = front.length := by
    simp only [List.length_append, List.length_singleton] at h
    omega
  · rw [List.set_append_left _ _ hi, List.dropLast_concat, List.eraseIdx_append_of_lt_length hi]
    exact (List.set_perm_cons_eraseIdx hi last).trans (List.perm_append_singleton _ _).symm
  · rw [List.set_append_right _ _ (Nat.le_refl _), Nat.sub_self, List.set_cons_zero,
      List.dropLast_concat, List.eraseIdx_append_of_length_le (Nat.le_refl _), Nat.sub_self,
      List.eraseIdx_cons_zero, List.append_nil]

/-- A table without an oldest entry has no entry. -/
theorem oldest?_eq_none {entries : List CacheEntry} (h : oldest? entries = none) :
    entries = [] := by
  cases entries with
  | nil => rfl
  | cons head rest =>
      rw [oldest?] at h
      split at h
      · split at h <;> cases h
      · cases h

/-- No entry is older than the oldest one. -/
theorem oldest?_eq_some {entries : List CacheEntry} {i age : Nat}
    (h : oldest? entries = some (i, age)) :
    (∃ entry, entries[i]? = some entry ∧ entry.age = age) ∧ ∀ entry ∈ entries, entry.age ≤ age := by
  induction entries generalizing i age with
  | nil => cases h
  | cons head rest ih =>
      rw [oldest?] at h
      split at h
      case h_1 j oldest hrest =>
        obtain ⟨hentry, hle⟩ := ih hrest
        split at h
        case isTrue hage =>
          cases h
          exact ⟨by simpa using hentry, by simpa using ⟨hage, hle⟩⟩
        case isFalse hage =>
          cases h
          refine ⟨⟨head, rfl, rfl⟩, List.forall_mem_cons.mpr ⟨Nat.le_refl _, fun entry hmem => ?_⟩⟩
          have := hle entry hmem
          omega
      case h_2 hnone =>
        cases h
        cases oldest?_eq_none hnone
        simp

namespace Represents

variable {cache : ExponentCache} {map : LruMap}

/-- The cache has as many entries as the map has items. -/
theorem length_eq (h : cache.Represents map) : cache.length = map.items.length := by
  rw [length, h.entries.length_eq, CacheEntry.length_agedFrom]

/-- The keys of the cache are those of the map. -/
theorem keys_perm (h : cache.Represents map) : cache.keys.Perm map.keys := by
  rw [keys, LruMap.keys, ← CacheEntry.map_key_agedFrom 0]
  exact h.entries.map _

/-- The oldest entry stands for the last item. -/
theorem eraseIdx_oldest (h : cache.Represents map) {i : Nat} {entry : CacheEntry}
    (hentry : cache.entries[i]? = some entry) (hold : ∀ other ∈ cache.entries, other.age ≤ entry.age) :
    ∃ front, map.items = front ++ [(entry.key, entry.parts)] ∧
      (cache.entries.eraseIdx i).Perm (agedFrom 0 front) := by
  obtain ⟨front, back, hitems, hage, hrest⟩ := eraseIdx_perm h.entries hentry
  obtain rfl | ⟨init, last, rfl⟩ := back.eq_nil_or_concat'
  · exact ⟨front, hitems, by simpa [agedFrom] using hrest⟩
  · -- an item after this one would stand for an older entry
    have hlast : ⟨front.length + 1 + init.length, last.1, last.2⟩ ∈ agedFrom 0 map.items :=
      CacheEntry.mem_agedFrom.mpr ⟨front ++ (entry.key, entry.parts) :: init, [], by
        simp [hitems], by simp; omega⟩
    have := hold _ (h.entries.symm.subset hlast)
    dsimp only at this
    omega

/-- A full cache makes room by dropping the entry for the last item. -/
theorem makeRoom (h : cache.Represents map) (hwell : map.WellFormed) :
    cache.makeRoom.Perm (agedFrom 0 (map.items.take (map.capacity - 1))) := by
  have hle := hwell.length_le
  have hpos := hwell.capacity_pos
  rw [ExponentCache.makeRoom, h.length_eq, h.capacity]
  split
  case isFalse hroom =>
    rw [List.take_of_length_le (by omega)]
    exact h.entries
  case isTrue hfull =>
    split
    case h_1 i age holdest =>
      obtain ⟨⟨entry, hentry, rfl⟩, hold⟩ := oldest?_eq_some holdest
      obtain ⟨front, hitems, hrest⟩ := h.eraseIdx_oldest hentry hold
      rw [← hfull, hitems, List.length_append, List.length_singleton, Nat.add_sub_cancel,
        List.take_left' rfl]
      exact (swapRemove_perm (List.getElem?_eq_some_iff.mp hentry).1).trans hrest
    case h_2 hnone =>
      have := h.length_eq
      rw [length, oldest?_eq_none hnone, List.length_nil] at this
      omega

/-- The place of a key in the table is the one of an entry with this key. -/
theorem place?_eq_some {entries : List CacheEntry} {key : CacheKey} {i : Nat}
    (h : place? entries key = some i) :
    ∃ entry, entries[i]? = some entry ∧ entry.key = key := by
  obtain ⟨hi, hmatches, -⟩ := List.findIdx?_eq_some_iff_getElem.mp h
  exact ⟨entries[i], List.getElem?_eq_getElem hi, (CacheEntry.matchesKey_iff _ _).mp hmatches⟩

/-- A key without a place in the table is not one of the map. -/
theorem place?_eq_none (h : cache.Represents map) {key : CacheKey} :
    place? cache.entries key = none ↔ key ∉ map.keys := by
  rw [← h.keys_perm.mem_iff, keys, place?, List.findIdx?_eq_none_iff, List.mem_map, not_exists]
  simp only [not_and, ← Bool.not_eq_true, CacheEntry.matchesKey_iff]

/-- Looking for a key gives the answer of the reference. -/
theorem find (h : cache.Represents map) (hwell : map.WellFormed) (key : CacheKey) :
    (cache.find key).1 = (map.find key).1 ∧ (cache.find key).2.Represents (map.find key).2 := by
  rw [ExponentCache.find, LruMap.find]
  cases hplace : place? cache.entries key with
  | none =>
      rw [LruMap.lookup_eq_none_iff.mpr (h.place?_eq_none.mp hplace)]
      exact ⟨rfl, h⟩
  | some i =>
      obtain ⟨entry, hentry, rfl⟩ := place?_eq_some hplace
      obtain ⟨front, back, hitems, hage, hrest⟩ := eraseIdx_perm h.entries hentry
      rw [LruMap.lookup_eq_some hwell.keys_nodup hitems,
        LruMap.others_eq_append hwell.keys_nodup hitems]
      exact ⟨by simp [getElem?_touch hentry], h.capacity, touch_perm hentry hage hrest⟩

/-- Adding parts for a key does what the reference does. -/
theorem add (h : cache.Represents map) (hwell : map.WellFormed) (key : CacheKey)
    (parts : DerivedParts) : (cache.add key parts).Represents (map.add key parts) := by
  rw [ExponentCache.add, LruMap.add]
  cases hplace : place? cache.entries key with
  | none =>
      have hothers : map.others key = map.items :=
        LruMap.filter_ne_of_not_mem (h.place?_eq_none.mp hplace)
      refine ⟨h.capacity, ?_⟩
      rw [hothers]
      calc
        cache.makeRoom.map CacheEntry.older ++ [CacheEntry.mk 0 key parts]
        _ |>.Perm (CacheEntry.mk 0 key parts :: cache.makeRoom.map CacheEntry.older) :=
          List.perm_append_singleton _ _
        _ |>.Perm (CacheEntry.mk 0 key parts ::
            (agedFrom 0 (map.items.take (map.capacity - 1))).map CacheEntry.older) :=
          ((h.makeRoom hwell).map _).cons _
        _ = agedFrom 0 ((key, parts) :: map.items.take (map.capacity - 1)) := by
          rw [CacheEntry.map_older_agedFrom, agedFrom]
  | some i =>
      obtain ⟨entry, hentry, rfl⟩ := place?_eq_some hplace
      obtain ⟨front, back, hitems, hage, hrest⟩ := eraseIdx_perm h.entries hentry
      have hle := hwell.length_le
      refine ⟨h.capacity, ?_⟩
      rw [LruMap.others_eq_append hwell.keys_nodup hitems, List.take_of_length_le
        (by simp [hitems] at hle ⊢; omega)]
      -- the new parts are in place before the entry is used
      let replaced := cache.entries.modify i fun entry => { entry with parts := parts }
      have hreplaced : replaced[i]? = some { entry with parts := parts } := by
        rw [List.getElem?_modify_eq, hentry]
        rfl
      have herase : replaced.eraseIdx i = cache.entries.eraseIdx i :=
        List.eraseIdx_modify_of_eq _ _ _
      exact touch_perm hreplaced hage (herase ▸ hrest)

/-- Every call is answered as by the reference. -/
theorem perform (h : cache.Represents map) (hwell : map.WellFormed) (call : CacheCall) :
    (call.perform cache).1 = (call.performOn map).1 ∧
      (call.perform cache).2.Represents (call.performOn map).2 := by
  cases call with
  | add prime modulus exponent parts => exact ⟨rfl, h.add hwell _ parts⟩
  | find prime modulus exponent => exact h.find hwell _
  | clear => exact ⟨rfl, h.capacity, List.Perm.refl _⟩

end Represents

/-- An empty cache stands for an empty map. -/
theorem represents_withCapacity (capacity : Nat) :
    (withCapacity capacity).Represents (.withCapacity (max capacity 1)) :=
  ⟨rfl, List.Perm.refl _⟩

/-! ### Runs -/

/-- After past calls, listed latest first, a call drops an entry when it drops all of them, or when
it adds a new key to a full cache and the last call for any other entry was later. -/
def Drops (past : List CacheCall) (cache : ExponentCache) (entry : CacheEntry) : CacheCall → Prop
  | .add prime modulus exponent _ => .of prime modulus exponent ∉ cache.keys ∧
      cache.length = cache.capacity ∧
      ∀ other ∈ cache.entries, CacheCall.since other.key past ≤ CacheCall.since entry.key past
  | .find .. => False
  | .clear => True

/-- A cache of some size is the least-recently-used map of the calls that led to it, which are
listed latest first. -/
structure IsLruOf (size : Nat) (past : List CacheCall) (cache : ExponentCache) : Prop where
  capacity_eq : cache.capacity = max size 1
  length_le : cache.length ≤ cache.capacity
  keys_nodup : cache.keys.Nodup
  ages_perm : (cache.entries.map (·.age)).Perm (List.range cache.length)
  byLastCall : ∀ a ∈ cache.entries, ∀ b ∈ cache.entries,
    a.age < b.age ↔ CacheCall.since a.key past < CacheCall.since b.key past
  find_eq : ∀ prime modulus exponent, let key := CacheKey.of prime modulus exponent
    (cache.find key).1 = if key ∈ cache.keys then CacheCall.latestAdd? key past else none
  kept_iff : ∀ call, ∀ entry ∈ cache.entries,
    entry.key ∈ (call.perform cache).2.keys ↔ ¬Drops past cache entry call

namespace Represents

variable {cache : ExponentCache} {map : LruMap}

/-- The ages are the places of the items. -/
theorem ages_perm (h : cache.Represents map) :
    (cache.entries.map (·.age)).Perm (List.range cache.length) := by
  rw [h.length_eq, List.range_eq_range', ← CacheEntry.map_age_agedFrom]
  exact h.entries.map _

/-- An entry stands for the item whose place is its age. -/
theorem exists_append (h : cache.Represents map) {entry : CacheEntry}
    (hentry : entry ∈ cache.entries) :
    ∃ front back, map.items = front ++ (entry.key, entry.parts) :: back ∧
      entry.age = front.length := by
  simpa using CacheEntry.mem_agedFrom.mp (h.entries.subset hentry)

/-- The entries are listed by age as their items are. -/
theorem age_lt_iff (h : cache.Represents map) {past : List CacheCall} (hfollows : map.Follows past)
    {a b : CacheEntry} (ha : a ∈ cache.entries) (hb : b ∈ cache.entries) :
    a.age < b.age ↔ CacheCall.since a.key past < CacheCall.since b.key past := by
  have hitem : ∀ entry ∈ cache.entries, map.items[entry.age]? = some (entry.key, entry.parts) := by
    intro entry hentry
    obtain ⟨front, back, hitems, hage⟩ := h.exists_append hentry
    rw [hitems, hage, List.getElem?_append_right (Nat.le_refl _), Nat.sub_self,
      List.getElem?_cons_zero]
  obtain ⟨hi, hia⟩ := List.getElem?_eq_some_iff.mp (hitem a ha)
  obtain ⟨hj, hjb⟩ := List.getElem?_eq_some_iff.mp (hitem b hb)
  have horder := List.pairwise_iff_getElem.mp hfollows.byLastCall
  rcases Nat.lt_trichotomy a.age b.age with hlt | heq | hgt
  · have := horder _ _ hi hj hlt
    rw [hia, hjb] at this
    exact iff_of_true hlt this
  · have hab : (a.key, a.parts) = (b.key, b.parts) := by
      rw [← hia, ← hjb]
      simp only [heq]
    rw [heq, (Prod.mk.inj hab).1]
    simp
  · have := horder _ _ hj hi hgt
    rw [hia, hjb] at this
    exact iff_of_false (by omega) (by dsimp only at this; omega)

/-- The entry for the last item is the oldest one. -/
theorem age_add_one_eq_iff (h : cache.Represents map) {entry : CacheEntry}
    (hentry : entry ∈ cache.entries) :
    entry.age + 1 = cache.length ↔ ∀ other ∈ cache.entries, other.age ≤ entry.age := by
  have hages : ∀ age, age ∈ cache.entries.map (·.age) ↔ age < cache.length := by
    intro age
    rw [h.ages_perm.mem_iff, List.mem_range]
  constructor
  · intro hlast other hother
    have := (hages _).mp (List.mem_map_of_mem hother)
    omega
  · intro hold
    have hlt := (hages _).mp (List.mem_map_of_mem hentry)
    obtain ⟨other, hother, hage⟩ :=
      List.mem_map.mp ((hages (cache.length - 1)).mpr (by omega))
    have := hold other hother
    omega

/-- A call drops the entries that the reference drops. -/
theorem kept_iff (h : cache.Represents map) (hwell : map.WellFormed) {past : List CacheCall}
    (hfollows : map.Follows past) (call : CacheCall) {entry : CacheEntry}
    (hentry : entry ∈ cache.entries) :
    entry.key ∈ (call.perform cache).2.keys ↔ ¬Drops past cache entry call := by
  rw [(h.perform hwell call).2.keys_perm.mem_iff]
  obtain ⟨front, back, hitems, hage⟩ := h.exists_append hentry
  have hmem : entry.key ∈ map.keys := by simp [LruMap.keys, hitems]
  cases call with
  | clear => simp [CacheCall.performOn, LruMap.clear, LruMap.keys, Drops]
  | find prime modulus exponent =>
      simpa [CacheCall.performOn, Drops, LruMap.mem_keys_find] using hmem
  | add prime modulus exponent parts =>
      have hold : (∀ other ∈ cache.entries,
          CacheCall.since other.key past ≤ CacheCall.since entry.key past) ↔
          ∀ other ∈ cache.entries, other.age ≤ entry.age := by
        refine forall₂_congr fun other hother => ?_
        rw [← Nat.not_lt, ← Nat.not_lt, h.age_lt_iff hfollows hentry hother]
      rw [CacheCall.performOn, LruMap.mem_keys_add hwell hitems, Drops, hold,
        ← h.age_add_one_eq_iff hentry, h.keys_perm.mem_iff, h.length_eq, h.capacity, hage]

end Represents

/-- A cache of some size stands for a map that follows some calls. -/
structure Tracks (size : Nat) (past : List CacheCall) (cache : ExponentCache) (map : LruMap) :
    Prop where
  capacity_eq : map.capacity = max size 1
  wellFormed : map.WellFormed
  represents : cache.Represents map
  follows : map.Follows past

namespace Tracks

variable {size : Nat} {past : List CacheCall} {cache : ExponentCache} {map : LruMap}

/-- An empty cache. -/
theorem withCapacity (size : Nat) :
    Tracks size [] (.withCapacity size) (.withCapacity (max size 1)) :=
  ⟨rfl, LruMap.wellFormed_withCapacity (by omega), represents_withCapacity size,
    LruMap.follows_withCapacity _⟩

/-- One more call. -/
theorem perform (h : Tracks size past cache map) (call : CacheCall) :
    Tracks size (call :: past) (call.perform cache).2 (call.performOn map).2 :=
  ⟨(LruMap.capacity_performOn map call).trans h.capacity_eq, h.wellFormed.performOn call,
    (h.represents.perform h.wellFormed call).2, h.follows.performOn call⟩

/-- Any number of calls, with the answers of the reference. -/
theorem serve (h : Tracks size past cache map) (calls : List CacheCall) :
    (CacheCall.serve CacheCall.perform cache calls).1
        = (CacheCall.serve CacheCall.performOn map calls).1 ∧
      Tracks size (calls.reverse ++ past) (CacheCall.serve CacheCall.perform cache calls).2
        (CacheCall.serve CacheCall.performOn map calls).2 := by
  induction calls generalizing cache map past with
  | nil => exact ⟨rfl, h⟩
  | cons call rest ih =>
      obtain ⟨hanswers, hafter⟩ := ih (h.perform call)
      rw [CacheCall.serve, CacheCall.serve, List.reverse_cons, List.append_assoc]
      refine ⟨?_, hafter⟩
      rw [hanswers, (h.represents.perform h.wellFormed call).1]

/-- The cache is the least-recently-used map of the calls. -/
theorem isLruOf (h : Tracks size past cache map) : cache.IsLruOf size past where
  capacity_eq := h.represents.capacity.trans h.capacity_eq
  length_le := by
    rw [h.represents.length_eq, h.represents.capacity]
    exact h.wellFormed.length_le
  keys_nodup := h.represents.keys_perm.nodup_iff.mpr h.wellFormed.keys_nodup
  ages_perm := h.represents.ages_perm
  byLastCall := fun _ ha _ hb => h.represents.age_lt_iff h.follows ha hb
  find_eq := by
    intro prime modulus exponent key
    rw [(h.represents.find h.wellFormed key).1, h.follows.find_eq]
    simp only [h.represents.keys_perm.mem_iff]
  kept_iff := fun call _ hentry => h.represents.kept_iff h.wellFormed h.follows call hentry

end Tracks

end ExponentCache

/-- For every size, zero counting as one, and every sequence of calls, the cache gives the answers
of the least-recently-used map, and its entries are the items of this map: their ages are the places
of the keys in the order of their last calls. -/
theorem leastRecentlyUsed (size : Nat) (calls : List CacheCall) :
    (CacheCall.serve CacheCall.perform (.withCapacity size) calls).1
        = (CacheCall.serve CacheCall.performOn (.withCapacity (max size 1)) calls).1 ∧
      (CacheCall.serve CacheCall.perform (.withCapacity size) calls).2.IsLruOf size
        calls.reverse := by
  obtain ⟨hanswers, hafter⟩ := (ExponentCache.Tracks.withCapacity size).serve calls
  rw [List.append_nil] at hafter
  exact ⟨hanswers, hafter.isLruOf⟩

-- the key found last stays when a third one comes to a cache for two
example : (CacheCall.serve CacheCall.perform (.withCapacity 2)
    [.add [0, 3] [15] 3 ⟨[5], [3]⟩, .add [7] [33] 3 ⟨[11], [7]⟩, .find [3] [0, 15] 3,
      .add [5] [85] 3 ⟨[17], [43]⟩, .find [7] [33] 3, .find [3] [15] 3]).1
    = [none, none, some ⟨[5], [3]⟩, none, none, some ⟨[5], [3]⟩] := by decide

end TrustedPlatform.Rsa
