/-
  MagneticBearing.Quartic.Companion — the roots of a depressed quartic as eigenvalues.

  The companion matrix has the quartic as its characteristic polynomial. It is already upper
  Hessenberg, and double-shifted QR sweeps (Francis) take it to a quasi-triangular matrix:
  each sweep reflects the unreduced block `start … stop` once more, a subdiagonal entry that
  is negligible beside its neighbours is set to zero and splits the block, and a block of two
  rows with real eigenvalues is rotated to triangular form. What is left on the diagonal is
  read off: real entries, and pairs `h ± i w` from the blocks of two.

  The matrix is scaled by its largest entry for the sweeps. Rows and columns count from zero.
-/

import MagneticBearing.Quartic

namespace MagneticBearing.Quartic

variable {K : Type} [Scalar K]

/-- A matrix of four rows, stored row by row. -/
structure Square (K : Type) where
  cells : Array K

namespace Square

def get (t : Square K) (i j : Nat) : K := t.cells.getD (4 * i + j) 0.0

def set (t : Square K) (i j : Nat) (x : K) : Square K := ⟨t.cells.setIfInBounds (4 * i + j) x⟩

def map (f : K → K) (t : Square K) : Square K := ⟨t.cells.map f⟩

/-- The numbers `first, …, last`. -/
def span (first last : Nat) : List Nat := (List.range (last + 1)).drop first

def dot : List K → List K → K
  | x :: xs, y :: ys => (xs.zip ys).foldl (fun acc p => acc + p.1 * p.2) (x * y)
  | _, _ => 0.0

def setAll (t : Square K) (cells : List (Nat × Nat)) (values : List K) : Square K :=
  (cells.zip values).foldl (fun t c => t.set c.1.1 c.1.2 c.2) t

def getAll (t : Square K) (cells : List (Nat × Nat)) : List K := cells.map fun c => t.get c.1 c.2

/-- Reflect, along the unit vector `axis`, the rows from `row` on, in the columns from `row` on. -/
def reflectLeft (t : Square K) (axis : List K) (row : Nat) : Square K :=
  (span row 3).foldl (fun t j =>
    let cells := (List.range axis.length).map fun i => (row + i, j)
    let column := t.getAll cells
    let f := dot axis column * -2.0
    t.setAll cells ((axis.zip column).map fun p => f * p.1 + p.2)) t

/-- Reflect the columns from `col` on, in the rows `0, …, last`. -/
def reflectRight (t : Square K) (axis : List K) (col last : Nat) : Square K :=
  (span 0 last).foldl (fun t i =>
    let cells := (List.range axis.length).map fun j => (i, col + j)
    let row := t.getAll cells
    let w := dot axis row
    t.setAll cells ((axis.zip row).map fun p => -2.0 * p.1 * w + p.2)) t

end Square

open Square

/-- The unit axis of the reflection that takes `v` to a multiple of the first unit vector, and
that multiple; none for the zero vector. -/
def reflector (v : List K) : Option (List K × K) :=
  let sq := dot v v
  let norm := Scalar.sqrt sq
  let x := v.headD 0.0
  let (size, sign) := if 0.0 ≤ x then (x, 1.0) else (-x, -1.0)
  let factor : K := (sq + size * norm) * 2.0
  if factor == 0.0 then none
  else
    let moved := (x + sign * norm) :: v.tail
    let axis := moved.map (· / Scalar.sqrt factor)
    let length := Scalar.sqrt (dot axis axis)
    some (axis.map (· / length), -(sign * norm))

def companion (c : Quartic K) : Square K :=
  ⟨#[0.0, -c.p, -c.q, -c.r, 1.0, 0.0, 0.0, 0.0, 0.0, 1.0, 0.0, 0.0, 0.0, 0.0, 1.0, 0.0]⟩

/-- Is the entry left of `(n, n)` negligible beside its diagonal neighbours? -/
def negligible (t : Square K) (n : Nat) : Bool :=
  Arith.abs (t.get n (n - 1)) ≤
    Arith.epsilon * (Arith.abs (t.get n n) + Arith.abs (t.get (n - 1) (n - 1)))

/-- The last row of the lowest unreduced block at or above `n`, with the entries below it cleared. -/
def blockEnd (t : Square K) : Nat → Square K × Nat
  | 0 => (t, 0)
  | n + 1 => if negligible t (n + 1) then blockEnd (t.set (n + 1) n 0.0) n else (t, n + 1)

def blockStart (t : Square K) : Nat → Square K × Nat
  | 0 => (t, 0)
  | n + 1 =>
    if t.get (n + 1) n == 0.0 || negligible t (n + 1) then (t.set (n + 1) n 0.0, n + 1)
    else blockStart t n

/-- The lowest unreduced block within the rows `0, …, n`: first row, last row. -/
def block (t : Square K) (n : Nat) : Square K × Nat × Nat :=
  match blockEnd t n with
  | (t, 0) => (t, 0, 0)
  | (t, stop + 1) =>
    let (t, start) := blockStart t stop
    (t, start, stop + 1)

/-- Sum and product of the two shifts of a sweep. A hundred sweeps on, an arbitrary pair breaks
whatever cycle holds the block. -/
def shifts (t : Square K) (stop sweep : Nat) : K × K :=
  if sweep % 100 = 99 then
    let s := Arith.abs (t.get stop (stop - 1)) + Arith.abs (t.get (stop - 1) (stop - 2))
    (1.5 * s, s * s)
  else
    (t.get stop stop + t.get (stop - 1) (stop - 1),
      t.get stop stop * t.get (stop - 1) (stop - 1) - t.get stop (stop - 1) * t.get (stop - 1) stop)

/-- The first column of the shifted square, which starts the bulge. -/
def bulge (t : Square K) (start stop sweep : Nat) : List K :=
  let (sum, product) := shifts t stop sweep
  let h11 := t.get start start
  let h21 := t.get (start + 1) start
  [h11 * h11 + t.get start (start + 1) * h21 - sum * h11 + product,
    h21 * (h11 + t.get (start + 1) (start + 1) - sum),
    h21 * t.get (start + 2) (start + 1)]

/-- Chase the bulge through rows `k, …, stop`. -/
def chase (start stop : Nat) : Nat → Square K × List K → Square K × List K
  | k, (t, axis) =>
    let t := match reflector axis with
      | none => t
      | some (unit, norm) =>
        let t := if start < k then ((t.set k (k - 1) norm).set (k + 1) (k - 1) 0.0).set (k + 2) (k - 1) 0.0 else t
        (t.reflectLeft unit k).reflectRight unit k (min (k + 3) stop)
    let third := if k + 3 ≤ stop then t.get (k + 3) k else axis.getD 2 0.0
    (t, [t.get (k + 1) k, t.get (k + 2) k, third])

def sweepBlock (t : Square K) (start stop sweep : Nat) : Square K :=
  let (t, axis) := (span start (stop - 2)).foldl (fun s k => chase start stop k s) (t, bulge t start stop sweep)
  match reflector (axis.take 2) with
  | none => t
  | some (unit, norm) =>
    let t := (t.set (stop - 1) (stop - 2) norm).set stop (stop - 2) 0.0
    (t.reflectLeft unit (stop - 1)).reflectRight unit (stop - 1) stop

/-- Half the sum of a block's two eigenvalues, and the square of half their difference. -/
def pairTerms (t : Square K) (m : Nat) : K × K :=
  let v := (t.get m m - t.get (m + 1) (m + 1)) * 0.5
  ((t.get m m + t.get (m + 1) (m + 1)) * 0.5, t.get (m + 1) m * t.get m (m + 1) + v * v)

/-- Cosine and sine of the rotation that makes the block at `m` triangular, for real eigenvalues. -/
def splitting (t : Square K) (m : Nat) : Option (K × K) :=
  let h10 := t.get (m + 1) m
  let (half, disc) := pairTerms t m
  if h10 == 0.0 then none
  else if 0.0 ≤ disc then
    let w := Scalar.sqrt disc
    let x1 := half + w - t.get (m + 1) (m + 1)
    let x2 := half - w - t.get (m + 1) (m + 1)
    let x := if Arith.abs x2 < Arith.abs x1 then x1 else x2
    let (size, sign) := if 0.0 ≤ x then (x, 1.0) else (-x, -1.0)
    let d := Scalar.sqrt (size * size + h10 * h10)
    some (if 0.0 < d then (size / d, h10 / (sign * d)) else (1.0, 0.0))
  else none

def rotate (t : Square K) (m : Nat) (c s : K) : Square K :=
  let t := (span m 3).foldl (fun t j =>
    let a := t.get m j
    let b := t.get (m + 1) j
    (t.set m j (a * c + s * b)).set (m + 1) j (b * c - s * a)) t
  (span 0 (m + 1)).foldl (fun t i =>
    let a := t.get i m
    let b := t.get i (m + 1)
    (t.set i m (a * c + s * b)).set i (m + 1) (b * c - s * a)) t

def splitBlock (t : Square K) (m : Nat) : Square K :=
  match splitting t m with
  | none => t
  | some (c, s) => (rotate t m c s).set (m + 1) m 0.0

def reduceFrom : Nat → Nat → Square K × Nat × Nat → Square K
  | 0, _, (t, _) => t
  | fuel + 1, sweep, (t, start, stop) =>
    if start = stop then t
    else if start + 1 < stop then
      let t := sweepBlock t start stop sweep
      reduceFrom fuel (sweep + 1) (block t stop)
    else
      let t := splitBlock t start
      if 2 < stop then reduceFrom fuel (sweep + 1) (block t (stop - 2)) else t

/-- The quasi-triangular form. -/
def reduced (t : Square K) : Square K := reduceFrom 2000 0 (block t 3)

def eigenvaluesFrom (t : Square K) (m : Nat) : List (Cx K) :=
  if _ : m < 3 then
    if t.get (m + 1) m == 0.0 then Cx.ofReal (t.get m m) :: eigenvaluesFrom t (m + 1)
    else
      let (half, disc) := pairTerms t m
      let w := Scalar.sqrt (-disc)
      ⟨half, w⟩ :: ⟨half, -w⟩ :: eigenvaluesFrom t (m + 2)
  else if m = 3 then [Cx.ofReal (t.get 3 3)]
  else []
termination_by 4 - m

def companionRoots : RootFinder K := fun c =>
  let t := companion c
  let top := t.cells.foldl (fun m x => let a := Arith.abs x; if a ≤ m then m else a) 0.0
  .ok (eigenvaluesFrom ((reduced (t.map (· / top))).map (· * top)) 0)

end MagneticBearing.Quartic
