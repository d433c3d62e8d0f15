/-!
Signed integers of 128 bits. Arithmetic has a result only if the exact value fits.
-/

namespace Scriptlet

/-- An integer from `-2 ^ 127` up to `2 ^ 127`, which is left out. -/
@[ext]
structure Int128 where
  val : Int
  le_val : -0x80000000000000000000000000000000 ≤ val
  val_lt : val < 0x80000000000000000000000000000000
deriving DecidableEq, Repr

namespace Int128

/-- The integer, if it fits. -/
def ofInt? (n : Int) : Option Int128 :=
  if h : -0x80000000000000000000000000000000 ≤ n ∧ n < 0x80000000000000000000000000000000 then
    some ⟨n, h.1, h.2⟩
  else none

def add? (a b : Int128) : Option Int128 := ofInt? (a.val + b.val)

def sub? (a b : Int128) : Option Int128 := ofInt? (a.val - b.val)

def mul? (a b : Int128) : Option Int128 := ofInt? (a.val * b.val)

/-- The quotient toward zero. There is none by zero. -/
def div? (a b : Int128) : Option Int128 :=
  if b.val = 0 then none else ofInt? (a.val.tdiv b.val)

/-- The opposite. The least value has none. -/
def neg? (a : Int128) : Option Int128 := ofInt? (-a.val)

/-- The nearest float. -/
def toFloat (a : Int128) : Float := Float.ofInt a.val

instance : ToString Int128 := ⟨fun a => toString a.val⟩

theorem ofInt?_eq_some_iff {n : Int} {a : Int128} : ofInt? n = some a ↔ a.val = n := by
  unfold ofInt?
  split
  · simp [Int128.ext_iff, eq_comm]
  · rename_i h
    simp only [reduceCtorEq, false_iff]
    rintro rfl
    exact h ⟨a.le_val, a.val_lt⟩

end Int128

end Scriptlet
