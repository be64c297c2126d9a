/-!
# Matrices

Small matrices over any type with the operations of arithmetic, stored by rows. Entries are read by `get` and a matrix
is made from its entries by `ofFn`; sums run from the first index to the last.
-/

namespace NeuroMap

universe u

variable {α : Type u} {l m n : Nat}

/-- A matrix with `m` rows and `n` columns. -/
structure Mat (α : Type u) (m n : Nat) where
  rows : Vector (Vector α n) m

namespace Mat

/-- The matrix with the given entries. -/
def ofFn (f : Fin m → Fin n → α) : Mat α m n :=
  ⟨Vector.ofFn fun i => Vector.ofFn (f i)⟩

/-- The entry in row `i` and column `j`. -/
def get (a : Mat α m n) (i : Fin m) (j : Fin n) : α :=
  a.rows[i][j]

@[simp] theorem get_ofFn (f : Fin m → Fin n → α) (i : Fin m) (j : Fin n) : (ofFn f).get i j = f i j := by
  simp [get, ofFn]

end Mat

/-- The sum of `f 0`, …, `f (n - 1)`, from the left. -/
def sumFin [Zero α] [Add α] (f : Fin n → α) : α :=
  Fin.foldl n (fun sum i => sum + f i) 0

/-- The natural number `k` as one added up `k` times. -/
def natural [Zero α] [One α] [Add α] : Nat → α
  | 0 => 0
  | k + 1 => natural k + 1

/-- Two to the power of `k`. -/
def powerOfTwo [One α] [Add α] : Nat → α
  | 0 => 1
  | k + 1 => powerOfTwo k + powerOfTwo k

namespace Mat

/-- The matrix of zeros. -/
def zero [Zero α] : Mat α m n :=
  ofFn fun _ _ => 0

/-- The matrix with ones on the diagonal. -/
def one [Zero α] [One α] : Mat α n n :=
  ofFn fun i j => if i = j then 1 else 0

/-- The sum of two matrices. -/
def add [Add α] (a b : Mat α m n) : Mat α m n :=
  ofFn fun i j => a.get i j + b.get i j

/-- The difference of two matrices. -/
def sub [Sub α] (a b : Mat α m n) : Mat α m n :=
  ofFn fun i j => a.get i j - b.get i j

/-- The product of two matrices. -/
def mul [Zero α] [Add α] [Mul α] (a : Mat α l m) (b : Mat α m n) : Mat α l n :=
  ofFn fun i j => sumFin fun k => a.get i k * b.get k j

/-- Every entry multiplied by `x`. -/
def scale [Mul α] (a : Mat α m n) (x : α) : Mat α m n :=
  ofFn fun i j => a.get i j * x

/-- Every entry divided by `x`. -/
def divide [Div α] (a : Mat α m n) (x : α) : Mat α m n :=
  ofFn fun i j => a.get i j / x

/-- The sum of the diagonal. -/
def trace [Zero α] [Add α] (a : Mat α n n) : α :=
  sumFin fun i => a.get i i

/-- The products of the entries of a column and a row. -/
def outer [Mul α] (column : Fin m → α) (row : Fin n → α) : Mat α m n :=
  ofFn fun i j => column i * row j

end Mat

end NeuroMap
