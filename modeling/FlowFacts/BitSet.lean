/-! # Bit sets

A set of small numbers, kept as 64-bit words with the number of members beside them.
Every operation that may change a set also tells whether it did. Storage grows when a
member needs it and never shrinks, so two sets with the same members may differ in
storage; `==` looks at the members only.
-/

namespace FlowFacts

structure BitSet where
  words : Array UInt64
  count : Nat
deriving Repr

namespace BitSet

/-! ## Words -/

/-- Bit `j` of a word. -/
def bit (w : UInt64) (j : Nat) : Bool := w.toBitVec.getLsbD j

/-- The word with bit `j` alone, for `j` below 64. -/
def mask (j : Nat) : UInt64 := 1 <<< j.toUInt64

def ones (w : UInt64) : Nat := (List.range 64).countP (bit w)

/-- Word `k` of the storage. Past its end all words are zero. -/
def word (s : BitSet) (k : Nat) : UInt64 := s.words.getD k 0

/-! ## Making sets -/

def empty : BitSet := ⟨#[], 0⟩

/-- The empty set with storage for `capacity` members. -/
def withCapacity (capacity : Nat) : BitSet := ⟨Array.replicate ((capacity + 63) / 64) 0, 0⟩

/-- The set of all numbers below `n`. -/
def full (n : Nat) : BitSet :=
  let whole := Array.replicate (n / 64) (~~~0 : UInt64)
  ⟨if n % 64 = 0 then whole else whole.push (mask (n % 64) - 1), n⟩

/-! ## Reading -/

def contains (s : BitSet) (i : Nat) : Bool := bit (s.word (i / 64)) (i % 64)

def size (s : BitSet) : Nat := s.count

def isEmpty (s : BitSet) : Bool := s.count == 0

/-- The members in ascending order, word by word. -/
def toList (s : BitSet) : List Nat :=
  (List.range s.words.size).flatMap fun k =>
    ((List.range 64).filter (bit (s.word k))).map (64 * k + ·)

/-- The place of the lowest one of a word, or 64 if it has none. -/
def lowest (w : UInt64) : Nat := w.toBitVec.ctz.toNat

/-- A word without its lowest one. -/
def dropLowest (w : UInt64) : UInt64 := w &&& (w - 1)

/-- A place on the way through the members. -/
structure Cursor where
  set : BitSet
  /-- The number of the word at hand. -/
  index : Nat
  /-- The ones of that word that are still to come. -/
  rest : UInt64

def cursor (s : BitSet) : Cursor := ⟨s, 0, s.word 0⟩

/-- The next member and the place after it. Words without ones are skipped. -/
def Cursor.next? (c : Cursor) : Option (Nat × Cursor) :=
  if c.rest ≠ 0 then
    some (64 * c.index + lowest c.rest, { c with rest := dropLowest c.rest })
  else if c.index + 1 < c.set.words.size then
    next? { c with index := c.index + 1, rest := c.set.word (c.index + 1) }
  else none
termination_by c.set.words.size - c.index

def beq (s t : BitSet) : Bool :=
  s.count == t.count &&
    (List.range (max s.words.size t.words.size)).all fun k => s.word k == t.word k

instance : BEq BitSet := ⟨beq⟩

/-! ## Changing -/

def grow (words : Array UInt64) (n : Nat) : Array UInt64 :=
  words ++ Array.replicate (n - words.size) 0

/-- Adds `i`. The flag tells whether it is new. -/
def insert (s : BitSet) (i : Nat) : BitSet × Bool :=
  if s.contains i then (s, false)
  else
    let words := (grow s.words (i / 64 + 1)).modify (i / 64) (· ||| mask (i % 64))
    (⟨words, s.count + 1⟩, true)

/-- Takes `i` out. The flag tells whether it was there. -/
def erase (s : BitSet) (i : Nat) : BitSet × Bool :=
  if s.contains i then
    (⟨s.words.modify (i / 64) (· &&& ~~~mask (i % 64)), s.count - 1⟩, true)
  else (s, false)

/-- Adds every member of `t` to `s`. The flag tells whether any is new. -/
def union (s t : BitSet) : BitSet × Bool :=
  let range := List.range (max s.words.size t.words.size)
  let added := (range.map fun k => ones (t.word k &&& ~~~s.word k)).foldr (· + ·) 0
  (⟨(range.map fun k => s.word k ||| t.word k).toArray, s.count + added⟩, added != 0)

/-- Takes every member out and keeps the storage. -/
def clear (s : BitSet) : BitSet := ⟨s.words.map fun _ => 0, 0⟩

def insertAll (s : BitSet) (is : List Nat) : BitSet :=
  is.foldl (fun s i => (s.insert i).1) s

def ofList (is : List Nat) : BitSet := empty.insertAll is

end BitSet

end FlowFacts
