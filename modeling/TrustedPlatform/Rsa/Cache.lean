import TrustedPlatform.Rsa.PublicKey

/-!
# Cache of derived key parts

The other prime and the private exponent of a key follow from one prime, the modulus and the
public exponent. The cache keeps the results of the last derivations. Each entry has an age, zero
for the entry used last; when the cache is full, the oldest entry leaves before a new one enters.
-/

namespace TrustedPlatform.Rsa

/-- What an entry of the cache is found by. -/
structure CacheKey where
  /-- The prime, without leading zeros. -/
  prime : Bytes
  /-- The modulus, without leading zeros. -/
  modulus : Bytes
  /-- The public exponent. -/
  exponent : UInt32
  deriving DecidableEq

/-- The key for a prime and a modulus with any leading zeros. -/
def CacheKey.of (prime modulus : Bytes) (exponent : UInt32) : CacheKey :=
  ⟨prime.stripZeros, modulus.stripZeros, exponent⟩

/-- What an entry of the cache holds. -/
structure DerivedParts where
  /-- The other prime. -/
  cofactor : Bytes
  /-- The private exponent. -/
  privateExponent : Bytes
  deriving DecidableEq

/-- An entry of the cache. -/
structure CacheEntry where
  /-- The number of other entries used since this one was. -/
  age : Nat
  key : CacheKey
  parts : DerivedParts
  deriving DecidableEq

namespace CacheEntry

/-- The entry, one step older. -/
def older (entry : CacheEntry) : CacheEntry :=
  { entry with age := entry.age + 1 }

/-- The entry belongs to a key; the primes are compared reading every byte. -/
def matchesKey (entry : CacheEntry) (key : CacheKey) : Bool :=
  entry.key.exponent == key.exponent && entry.key.modulus == key.modulus
    && entry.key.prime.ctEq key.prime

end CacheEntry

/-- A bounded table of derived parts. -/
structure ExponentCache where
  entries : List CacheEntry
  capacity : Nat

namespace ExponentCache

/-- The number of entries in a cache of the usual size. -/
abbrev defaultCapacity : Nat := 64

/-- An empty cache for a number of entries, at least one. -/
def withCapacity (capacity : Nat) : ExponentCache :=
  ⟨[], max capacity 1⟩

/-- An empty cache of the usual size. -/
def empty : ExponentCache :=
  withCapacity defaultCapacity

/-- The number of entries. -/
def length (cache : ExponentCache) : Nat :=
  cache.entries.length

/-- The cache has no entry. -/
def isEmpty (cache : ExponentCache) : Bool :=
  cache.entries.isEmpty

/-- The place of the entry for a key. -/
def place? (entries : List CacheEntry) (key : CacheKey) : Option Nat :=
  entries.findIdx? fun entry => entry.matchesKey key

/-- The entries after the one of age `old` has been used: those that were younger age by one. -/
def agedBelow (old : Nat) (entries : List CacheEntry) : List CacheEntry :=
  entries.map fun entry => if entry.age < old then entry.older else entry

/-- The entries after the one at place `i` has been used: it is the youngest of them now. -/
def touch (i : Nat) (entries : List CacheEntry) : List CacheEntry :=
  match entries[i]? with
  | some used => (agedBelow used.age entries).set i { used with age := 0 }
  | none => entries

/-- The parts stored for a key, with the cache after their use. -/
def find (cache : ExponentCache) (key : CacheKey) : Option DerivedParts × ExponentCache :=
  match place? cache.entries key with
  | some i =>
      let touched := touch i cache.entries
      (touched[i]?.map (·.parts), { cache with entries := touched })
  | none => (none, cache)

/-- The place and the age of the oldest entry; the last of them when several have that age. -/
def oldest? : List CacheEntry → Option (Nat × Nat)
  | [] => none
  | entry :: rest =>
      match oldest? rest with
      | some (i, age) => if entry.age ≤ age then some (i + 1, age) else some (0, entry.age)
      | none => some (0, entry.age)

/-- The entries without the one at place `i`, which the last entry takes. -/
def swapRemove (i : Nat) (entries : List CacheEntry) : List CacheEntry :=
  match entries.getLast? with
  | some last => (entries.set i last).dropLast
  | none => entries

/-- The entries without the oldest one when they fill the cache. -/
def makeRoom (cache : ExponentCache) : List CacheEntry :=
  if cache.length = cache.capacity then
    match oldest? cache.entries with
    | some (i, _) => swapRemove i cache.entries
    | none => cache.entries
  else cache.entries

/-- The cache with parts stored for a key as its youngest entry. -/
def add (cache : ExponentCache) (key : CacheKey) (parts : DerivedParts) : ExponentCache :=
  match place? cache.entries key with
  | some i =>
      let replaced := cache.entries.modify i fun entry => { entry with parts := parts }
      { cache with entries := touch i replaced }
  | none =>
      { cache with entries := cache.makeRoom.map CacheEntry.older ++ [⟨0, key, parts⟩] }

/-- The cache without entries. -/
def clear (cache : ExponentCache) : ExponentCache :=
  { cache with entries := [] }

/-- The number of entries and the bound on it. -/
def describe (cache : ExponentCache) : String :=
  "ExpDCache \x7b len: " ++ cache.length.repr ++ ", capacity: " ++ cache.capacity.repr ++ " \x7d"

end ExponentCache

end TrustedPlatform.Rsa
