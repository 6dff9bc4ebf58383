import NinetySix.Model.Key

set_option autoImplicit false

/-! # The model cache

A cache keeps compiled models by key. An entry never changes: the first model that is inserted under
a key stays until it is removed. Lookups are counted as hits and misses, in words of 64 bits that
start again at zero when the cache is cleared.

Every entry has a serial number, given in the order of insertion and never given twice, by which two
holders of a model can tell whether they hold the same one.
-/

namespace NinetySix

/-- A model in the cache. -/
structure Entry where
  serial : Nat
  model : Model
  deriving DecidableEq, Repr

structure Cache where
  entries : List (Key × Entry) := []
  hits : UInt64 := 0
  misses : UInt64 := 0
  /-- The number of insertions so far. -/
  serials : Nat := 0
  deriving Repr

namespace Cache

/-- The counts of a cache. -/
structure Stats where
  hits : UInt64
  misses : UInt64
  entries : Nat
  deriving DecidableEq, Repr

/-- The entry under a key, without counting. -/
def find? (c : Cache) (k : Key) : Option Entry := Table.find? k c.entries

/-- Looks a key up and counts the hit or the miss. -/
def get (c : Cache) (k : Key) : Option Entry × Cache :=
  match c.find? k with
  | some e => (some e, { c with hits := c.hits + 1 })
  | none => (none, { c with misses := c.misses + 1 })

/-- The entry under a key, which is that of the model given if there was none. -/
def insert (c : Cache) (k : Key) (m : Model) : Entry × Cache :=
  match c.find? k with
  | some e => (e, c)
  | none =>
    let e : Entry := ⟨c.serials, m⟩
    (e, { c with entries := c.entries ++ [(k, e)], serials := c.serials + 1 })

def contains (c : Cache) (k : Key) : Bool := (c.find? k).isSome

/-- Removes the entry under a key and gives it back. -/
def remove (c : Cache) (k : Key) : Option Entry × Cache :=
  (c.find? k, { c with entries := Table.erase k c.entries })

/-- Forgets all entries and counts. -/
def clear (c : Cache) : Cache := { c with entries := [], hits := 0, misses := 0 }

/-- The number of entries. -/
def size (c : Cache) : Nat := c.entries.length

def isEmpty (c : Cache) : Bool := c.entries.isEmpty

def stats (c : Cache) : Stats := ⟨c.hits, c.misses, c.size⟩

/-- The entry for a descriptor, compiled if there is none. A failed compilation counts as a miss and
inserts nothing. -/
def getOrCompile (c : Cache) (d : Descriptor) (schema : Option String) (o : Options) :
    Except CompileError Entry × Cache :=
  let k := Key.of d schema o
  match c.get k with
  | (some e, c) => (.ok e, c)
  | (none, c) =>
    match Model.compile d o with
    | .error e => (.error e, c)
    | .ok m =>
      let (e, c) := c.insert k m
      (.ok e, c)

end Cache

end NinetySix
