import Mathlib.Algebra.Order.Field.Basic
import Mathlib.Algebra.Order.Floor.Ring
import N2kMux.Lib.Double
import N2kMux.Lib.Lines

/-!
# Speed polars (polar.c)

A polar is a table of boat speeds by true wind angle (rows) and true wind speed
(columns).  `polar_parse_string` reads it from a text of lines of cells;
`polar_speed` interpolates in it.

The parser is generic in the numbers; `polar_speed` is exact arithmetic in an
ordered field.
-/

namespace N2kMux
namespace Polar

open CText

/-- `POLAR_MAX_TWS` -/
def maxTws : Nat := 64

/-- `POLAR_MAX_TWA` -/
def maxTwa : Nat := 256

/-- `polar_t`, without the reason of a refusal. -/
structure PolarTable (D : Type) where
  nTws : Nat
  nTwa : Nat
  tws : Nat → D
  twa : Nat → D
  spd : Nat → Nat → D
  maxSpeed : D

/-- What the parser does with numbers. -/
structure Numbers (D : Type) where
  zero : D
  /-- `strtod(s, &end)`: the number and the text at `end`, when one is read. -/
  strtod : Text → Option (D × Text)
  /-- `x < y` -/
  lt : D → D → Bool
  /-- `(float)x` -/
  toFloat : D → D

section Parser

variable {D : Type} (num : Numbers D)

/-- `memset(p, 0, sizeof *p)` -/
def emptyTable : PolarTable D where
  nTws := 0
  nTwa := 0
  tws := fun _ => num.zero
  twa := fun _ => num.zero
  spd := fun _ _ => num.zero
  maxSpeed := num.zero

/-! ### Cells -/

/-- The buffer of `cell_num`: blanks are left out, a comma is a point. -/
def cellBuffer (cell : Text) : Text :=
  ((cell.filter fun c => !(c == ' ' || c == '\t' || c == '\r')).take 47).map
    fun c => if c = ',' then '.' else c

/-- `cell_num` -/
def cellNum (cell : Text) : Option D :=
  if cellBuffer cell = [] then none
  else
    match num.strtod (cellBuffer cell) with
    | some (v, []) => some v
    | _ => none

/-- `split`: call `fn` for each cell, given the index of the current cell and what
precedes in it. -/
def split {σ : Type} (fn : σ → Nat → Text → Except Text σ) (sep : Char) (idx : Nat)
    (cell : Text) : Text → σ → Except Text σ
  | [], st => fn st idx cell
  | c :: s, st =>
      if c = sep then
        match fn st idx cell with
        | .error e => .error e
        | .ok st => split fn sep (idx + 1) [] s st
      else split fn sep idx (cell ++ [c]) s st

/-! ### The header -/

/-- `hdr_cell` -/
def hdrCell (p : PolarTable D) (idx : Nat) (cell : Text) : Except Text (PolarTable D) :=
  if idx = 0 then .ok p
  else
    match cellNum num cell with
    | none => .ok p
    | some v =>
        if p.nTws ≥ maxTws then .error "trop de colonnes de vent".toList
        else if p.nTws > 0 ∧ num.lt v (p.tws (p.nTws - 1)) then
          .error "vitesses de vent non croissantes dans l'en-tête".toList
        else .ok { p with tws := Function.update p.tws p.nTws v, nTws := p.nTws + 1 }

/-! ### The rows -/

/-- `row_ctx` -/
structure RowCtx (D : Type) where
  p : PolarTable D
  row : Nat
  hasTwa : Bool

/-- `row_cell` -/
def rowCell (rc : RowCtx D) (idx : Nat) (cell : Text) : Except Text (RowCtx D) :=
  if idx = 0 then
    match cellNum num cell with
    | none => .ok rc
    | some v =>
        .ok { rc with hasTwa := true,
                      p := { rc.p with twa := Function.update rc.p.twa rc.row v } }
  else if rc.hasTwa = false ∨ idx > rc.p.nTws then .ok rc
  else
    match cellNum num cell with
    | none => .ok rc
    | some v =>
        .ok { rc with
          p := { rc.p with
            spd := Function.update rc.p.spd rc.row
              (Function.update (rc.p.spd rc.row) (idx - 1) (num.toFloat v)),
            maxSpeed := if num.lt rc.p.maxSpeed v then v else rc.p.maxSpeed } }

/-- One line of the table. -/
def parseLine (sep : Char) (p : PolarTable D) (line : Text) : Except Text (PolarTable D) :=
  if p.nTwa ≥ maxTwa then .error "trop de lignes d'angle".toList
  else
    match split (rowCell num) sep 0 [] line ⟨p, p.nTwa, false⟩ with
    | .error e => .error e
    | .ok rc =>
        if rc.hasTwa then
          if rc.p.nTwa > 0 ∧ num.lt (rc.p.twa rc.p.nTwa) (rc.p.twa (rc.p.nTwa - 1)) then
            .error "angles de vent non croissants".toList
          else .ok { rc.p with nTwa := rc.p.nTwa + 1 }
        else .ok rc.p

/-! ### The text -/

/-- The text behind a byte order mark. -/
def skipBom (text : Text) : Text :=
  if text.take 3 = ['\xEF', '\xBB', '\xBF'] then text.drop 3 else text

/-- The text from its first line that is not blank on. -/
def skipBlank (s : Text) : Text :=
  s.dropWhile fun c => c == '\r' || c == '\n' || c == ' ' || c == '\t'

/-- The separator of the cells, from the header. -/
def separator (header : Text) : Option Char :=
  if ';' ∈ header then some ';'
  else if '\t' ∈ header then some '\t'
  else if ',' ∈ header then some ','
  else none

/-- The header of a text. -/
def headerOf (text : Text) : Text :=
  (skipBlank (skipBom text)).takeWhile fun c => c != '\n'

/-- The lines behind the header. -/
def bodyOf (text : Text) : List Text :=
  lines (((skipBlank (skipBom text)).dropWhile fun c => c != '\n').drop 1)

/-- `polar_parse_string` -/
def polarParseString (text : Text) : Except Text (PolarTable D) :=
  if caseprefix "TWA".toList (skipBlank (skipBom text)) = false then
    .error "pas une polaire de vitesse (en-tête TWA\\TWS attendu)".toList
  else
    match separator (headerOf text) with
    | none => .error "séparateur introuvable (« ; », tabulation ou « , »)".toList
    | some sep =>
        match split (hdrCell num) sep 0 [] (headerOf text) (emptyTable num) with
        | .error e => .error e
        | .ok p =>
            if p.nTws < 1 then .error "aucune vitesse de vent dans l'en-tête".toList
            else
              match (bodyOf text).foldlM (parseLine num sep) p with
              | .error e => .error e
              | .ok p =>
                  if p.nTwa < 1 then .error "aucune ligne d'angle".toList else .ok p

end Parser

section Speed

variable {α : Type} [Field α] [LinearOrder α] [FloorRing α]

/-- `fmod(x, y)`: the remainder of the division towards zero. -/
def fmod (x y : α) : α := x - y * (if 0 ≤ x / y then ⌊x / y⌋ else ⌈x / y⌉ : ℤ)

/-- The angle folded to the range from 0 to 180. -/
def foldAngle (twa : α) : α :=
  let turn : α := (360 : ℕ)
  let a := fmod twa turn
  let a := if a < 0 then a + turn else a
  if a > 180 then turn - a else a

/-- A coordinate kept within the axis `v` of `n` values. -/
def clampAxis (v : Nat → α) (n : Nat) (x : α) : α :=
  let x := if x < v 0 then v 0 else x
  if x > v (n - 1) then v (n - 1) else x

/-- `bracket` -/
def bracket (v : Nat → α) (n : Nat) (x : α) : Nat :=
  if n < 2 then 0
  else ((List.range (n - 2)).find? fun i => decide (x < v (i + 1))).getD (n - 2)

/-- `i2` and `j2`: the other end of the interval. -/
def otherEnd (n i : Nat) : Nat := if n > 1 then i + 1 else i

/-- A quotient; there is none by zero. -/
def quotient (x y : α) : Option α := if y = 0 then none else some (x / y)

/-- `fa` and `fw`: the weight of the other end. -/
def weight (x lo hi : α) : Option α :=
  if hi - lo > 0 then quotient (x - lo) (hi - lo) else some 0

/-- `polar_speed`; there is no result when a division by zero happens. -/
def polarSpeed (p : PolarTable α) : Double α → Double α → Option α
  | .val twaDeg, .val twsKn =>
      if p.nTwa < 1 ∨ p.nTws < 1 then some 0
      else
        let a := clampAxis p.twa p.nTwa (foldAngle twaDeg)
        let w := clampAxis p.tws p.nTws twsKn
        let i := bracket p.twa p.nTwa a
        let j := bracket p.tws p.nTws w
        let i2 := otherEnd p.nTwa i
        let j2 := otherEnd p.nTws j
        (weight a (p.twa i) (p.twa i2)).bind fun fa =>
          (weight w (p.tws j) (p.tws j2)).map fun fw =>
            (1 - fa) * (1 - fw) * p.spd i j + fa * (1 - fw) * p.spd i2 j +
              (1 - fa) * fw * p.spd i j2 + fa * fw * p.spd i2 j2
  | _, _ => some 0

end Speed

end Polar
end N2kMux
