import N2kMux.Polar.Speed

/-!
# The columns of a polar

What an accepted text leaves in the table: the wind speeds are the header cells that
can be read, in their order, while the cells of a row are stored by position.  The
two agree as long as no unreadable header cell stands before a readable one.
-/

namespace N2kMux
namespace Polar

open CText

section Columns

variable {D : Type} (num : Numbers D)

/-! ### What a text says -/

/-- The number in a cell, if there is a cell and it can be read. -/
def cellNumber (cell : Option Text) : Option D := cell.bind (cellNum num)

/-- The speed in the cell `c` of a row; 0 without a number. -/
def speedAt (row : List Text) (c : Nat) : D :=
  match cellNumber num row[c]? with
  | none => num.zero
  | some v => num.toFloat v

/-- The header cells that supply a wind speed, each with its column, for cells from
the column `c` on. -/
def suppliedFrom (c : Nat) (cells : List Text) : List (Nat × D) :=
  (cells.zipIdx c).filterMap fun x =>
    if x.2 = 0 then none else (cellNum num x.1).map fun v => (x.2, v)

/-- The separator of an accepted text. -/
def sepOf (text : Text) : Char := (separator (headerOf text)).getD ';'

/-- The wind speeds of the header, each with its column. -/
def supplied (text : Text) : List (Nat × D) :=
  suppliedFrom num 0 ((headerOf text).splitOn (sepOf text))

/-- The lines with a wind angle, in cells. -/
def anglesOf (sep : Char) (ls : List Text) : List (List Text) :=
  (ls.map fun l => l.splitOn sep).filter fun cells => (cellNumber num cells[0]?).isSome

/-- The data rows of a text. -/
def dataRows (text : Text) : List (List Text) := anglesOf num (sepOf text) (bodyOf text)

/-- Every stored speed is that of the row's cell in the column of the header cell. -/
def Aligned (text : Text) (p : PolarTable D) : Prop :=
  ∀ i row, (dataRows num text)[i]? = some row →
    ∀ j c v, (supplied num text)[j]? = some (c, v) → p.spd i j = speedAt num row c

/-- Behind an unreadable header cell, every row holds in the column of a wind speed
what it holds as many columns before as there are unreadable cells. -/
def Unshifted (text : Text) : Prop :=
  ∀ row ∈ dataRows num text, ∀ j c v, (supplied num text)[j]? = some (c, v) →
    c ≠ j + 1 → speedAt num row c = speedAt num row (j + 1)

/-! ### Splitting -/

/-- A function called for each cell, with its index. -/
def runCells {σ : Type} (fn : σ → Nat → Text → Except Text σ) :
    Nat → List Text → σ → Except Text σ
  | _, [], st => .ok st
  | idx, cell :: cells, st =>
      match fn st idx cell with
      | .error e => .error e
      | .ok st => runCells fn (idx + 1) cells st

theorem split_eq {σ : Type} (fn : σ → Nat → Text → Except Text σ) (sep : Char)
    (idx : Nat) (cell s : Text) (st : σ) :
    split fn sep idx cell s st =
      runCells fn idx ((s.splitOn sep).modifyHead (cell ++ ·)) st := by
  induction s generalizing idx cell st with
  | nil =>
      rw [split, List.splitOn_nil, List.modifyHead_cons, List.append_nil, runCells]
      cases fn st idx cell with
      | error e => rfl
      | ok st => rfl
  | cons c s ih =>
      rw [split, List.splitOn_cons_eq_if_modifyHead]
      by_cases hc : c = sep
      · rw [if_pos hc, if_pos (beq_iff_eq.mpr hc), List.modifyHead_cons, List.append_nil,
          runCells]
        cases fn st idx cell with
        | error e => rfl
        | ok st =>
            have hid : ∀ l : List Text, l.modifyHead (([] : Text) ++ ·) = l := by
              intro l
              cases l <;> rfl
            simp only [ih, hid]
      · rw [if_neg hc, if_neg (by simpa using hc), ih, List.modifyHead_modifyHead]
        congr 2
        funext t
        simp

theorem split_eq_runCells {σ : Type} (fn : σ → Nat → Text → Except Text σ) (sep : Char)
    (s : Text) (st : σ) :
    split fn sep 0 [] s st = runCells fn 0 (s.splitOn sep) st := by
  rw [split_eq]
  cases s.splitOn sep <;> rfl

/-! ### The header -/

variable {num} {p p' p'' : PolarTable D}

/-- The header wrote the wind speeds of `l` behind those of `p`. -/
structure Supplies (num : Numbers D) (p p' : PolarTable D) (l : List (Nat × D)) : Prop where
  nTws : p'.nTws = p.nTws + l.length
  kept : ∀ k, k < p.nTws → p'.tws k = p.tws k
  added : ∀ j c v, l[j]? = some (c, v) → p'.tws (p.nTws + j) = v
  rest : p' = { p with nTws := p'.nTws, tws := p'.tws }
  order : (∀ k, k + 1 < p.nTws → num.lt (p.tws (k + 1)) (p.tws k) = false) →
    ∀ k, k + 1 < p'.nTws → num.lt (p'.tws (k + 1)) (p'.tws k) = false

theorem Supplies.refl (p : PolarTable D) : Supplies num p p [] where
  nTws := rfl
  kept := fun _ _ => rfl
  added := by simp
  rest := rfl
  order := fun h => h

theorem Supplies.trans {l l' : List (Nat × D)} (h : Supplies num p p' l)
    (h' : Supplies num p' p'' l') :
    Supplies num p p'' (l ++ l') where
  nTws := by rw [h'.nTws, h.nTws, List.length_append, Nat.add_assoc]
  kept := fun k hk => by
    rw [h'.kept k (by rw [h.nTws]; omega), h.kept k hk]
  added := by
    intro j c v hj
    rcases Nat.lt_or_ge j l.length with hlt | hge
    · rw [List.getElem?_append_left hlt] at hj
      rw [h'.kept _ (by rw [h.nTws]; omega)]
      exact h.added j c v hj
    · rw [List.getElem?_append_right hge] at hj
      have hadd := h'.added _ c v hj
      rwa [h.nTws, show p.nTws + l.length + (j - l.length) = p.nTws + j by omega] at hadd
  rest := by
    have h1 := h.rest
    rw [h'.rest, h1]
  order := fun hp => h'.order (h.order hp)

theorem hdrCell_supplies {idx : Nat} {cell : Text}
    (h : hdrCell num p idx cell = .ok p') :
    Supplies num p p' (suppliedFrom num idx [cell]) := by
  simp only [suppliedFrom, List.zipIdx_cons, List.zipIdx_nil, List.filterMap_cons,
    List.filterMap_nil]
  rw [hdrCell] at h
  by_cases hidx : idx = 0
  · rw [if_pos hidx] at h
    cases h
    simpa [hidx] using Supplies.refl p
  · rw [if_neg hidx] at h
    rw [if_neg hidx]
    cases hnum : cellNum num cell with
    | none =>
        rw [hnum] at h
        cases h
        exact Supplies.refl p
    | some v =>
        simp only [hnum] at h
        split_ifs at h with hmax horder
        cases h
        refine ⟨rfl, fun k hk => Function.update_of_ne (by omega) _ _, ?_, rfl, ?_⟩
        · intro j c w hj
          rcases j with _ | j
          · simp at hj
            obtain ⟨-, rfl⟩ := hj
            exact Function.update_self _ _ _
          · simp at hj
        · intro hp k hk
          rcases Nat.lt_or_ge (k + 1) p.nTws with hlt | hge
          · show num.lt (Function.update p.tws p.nTws v (k + 1))
              (Function.update p.tws p.nTws v k) = false
            rw [Function.update_of_ne (by omega), Function.update_of_ne (by omega)]
            exact hp k hlt
          · have hk' : k + 1 = p.nTws := by
              have : k + 1 < p.nTws + 1 := hk
              omega
            show num.lt (Function.update p.tws p.nTws v (k + 1))
              (Function.update p.tws p.nTws v k) = false
            rw [hk', Function.update_self, Function.update_of_ne (by omega)]
            have hlast : p.nTws - 1 = k := by omega
            rw [hlast] at horder
            by_contra hlt
            exact horder ⟨by omega, by simpa using hlt⟩

theorem suppliedFrom_cons (c : Nat) (cell : Text) (cells : List Text) :
    suppliedFrom num c (cell :: cells) =
      suppliedFrom num c [cell] ++ suppliedFrom num (c + 1) cells := by
  simp only [suppliedFrom, List.zipIdx_cons, List.zipIdx_nil, ← List.filterMap_append,
    List.singleton_append]

theorem header_supplies {idx : Nat} {cells : List Text}
    (h : runCells (hdrCell num) idx cells p = .ok p') :
    Supplies num p p' (suppliedFrom num idx cells) := by
  induction cells generalizing idx p with
  | nil =>
      rw [runCells] at h
      cases h
      exact Supplies.refl _
  | cons cell cells ih =>
      rw [runCells] at h
      cases hcell : hdrCell num p idx cell with
      | error e =>
          rw [hcell] at h
          cases h
      | ok p₁ =>
          rw [hcell] at h
          rw [suppliedFrom_cons]
          exact (hdrCell_supplies hcell).trans (ih h)

/-! ### A row -/

/-- What a cell leaves at its place. -/
def stored (num : Numbers D) (old : D) (cell : Option Text) : D :=
  match cellNumber num cell with
  | none => old
  | some v => num.toFloat v

/-- The cells of a row from the `k`-th column on have been stored. -/
structure RowStored (num : Numbers D) (rc rc' : RowCtx D) (k : Nat) (cells : List Text) :
    Prop where
  hasTwa : rc'.hasTwa = rc.hasTwa
  row : rc'.row = rc.row
  rest : rc'.p = { rc.p with spd := rc'.p.spd, maxSpeed := rc'.p.maxSpeed }
  others : ∀ i, i ≠ rc.row → rc'.p.spd i = rc.p.spd i
  before : ∀ j, j < k → rc'.p.spd rc.row j = rc.p.spd rc.row j
  cells : ∀ j, j < rc.p.nTws → k ≤ j →
    rc'.p.spd rc.row j = stored num (rc.p.spd rc.row j) cells[j - k]?

theorem rowCell_stored (num : Numbers D) {rc : RowCtx D} (hacc : rc.hasTwa = true)
    (k : Nat) (cell : Text) :
    ∃ rc', rowCell num rc (k + 1) cell = .ok rc' ∧ RowStored num rc rc' k [cell] := by
  rw [rowCell, if_neg (by omega)]
  by_cases hextra : rc.hasTwa = false ∨ k + 1 > rc.p.nTws
  · have hk : rc.p.nTws ≤ k := by
      rcases hextra with hno | hgt
      · rw [hacc] at hno
        cases hno
      · omega
    rw [if_pos hextra]
    exact ⟨rc, rfl, rfl, rfl, rfl, fun _ _ => rfl, fun _ _ => rfl, fun j hj hkj => by omega⟩
  · rw [if_neg hextra]
    cases hnum : cellNum num cell with
    | none =>
        refine ⟨rc, rfl, rfl, rfl, rfl, fun _ _ => rfl, fun _ _ => rfl, fun j _ hkj => ?_⟩
        rcases Nat.eq_or_lt_of_le hkj with rfl | hlt
        · simp [stored, cellNumber, hnum]
        · rw [List.getElem?_eq_none (by simpa using by omega)]
          rfl
    | some v =>
        refine ⟨_, rfl, rfl, rfl, rfl, fun i hi => Function.update_of_ne hi _ _,
          fun j hj => ?_, fun j _ hkj => ?_⟩
        · show Function.update rc.p.spd rc.row _ rc.row j = _
          rw [Function.update_self, Function.update_of_ne (by omega)]
        · show Function.update rc.p.spd rc.row _ rc.row j = _
          rw [Function.update_self]
          rcases Nat.eq_or_lt_of_le hkj with rfl | hlt
          · simp [stored, cellNumber, hnum]
          · rw [Function.update_of_ne (by omega),
              List.getElem?_eq_none (by simpa using by omega)]
            rfl

theorem rowCells_stored (num : Numbers D) {rc : RowCtx D} (hacc : rc.hasTwa = true)
    (k : Nat) (cells : List Text) :
    ∃ rc', runCells (rowCell num) (k + 1) cells rc = .ok rc' ∧
      RowStored num rc rc' k cells := by
  induction cells generalizing rc k with
  | nil =>
      exact ⟨rc, rfl, rfl, rfl, rfl, fun _ _ => rfl, fun _ _ => rfl, fun _ _ _ => rfl⟩
  | cons cell cells ih =>
      obtain ⟨rc₁, hstep, h₁⟩ := rowCell_stored num hacc k cell
      obtain ⟨rc₂, hrun, h₂⟩ := ih (h₁.hasTwa.trans hacc) (k + 1)
      have hnTws : rc₁.p.nTws = rc.p.nTws := by rw [h₁.rest]
      refine ⟨rc₂, by rw [runCells, hstep]; exact hrun, h₂.hasTwa.trans h₁.hasTwa,
        h₂.row.trans h₁.row, ?_, ?_, ?_, ?_⟩
      · rw [h₂.rest, h₁.rest]
      · intro i hi
        rw [h₂.others i (by rwa [h₁.row]), h₁.others i hi]
      · intro j hj
        have hlate := h₂.before j (by omega)
        rw [h₁.row] at hlate
        rw [hlate, h₁.before j hj]
      · intro j hj hkj
        rcases Nat.eq_or_lt_of_le hkj with rfl | hlt
        · have hlate := h₂.before k (by omega)
          rw [h₁.row] at hlate
          rw [hlate, h₁.cells k hj le_rfl]
          simp
        · have hlate := h₂.cells j (by rw [hnTws]; exact hj) hlt
          have hearly := h₁.cells j hj hkj
          rw [List.getElem?_eq_none (by simpa using by omega)] at hearly
          rw [h₁.row] at hlate
          rw [hlate, hearly, show j - k = (j - (k + 1)) + 1 by omega,
            List.getElem?_cons_succ]
          rfl

/-- Without an angle, a line stores nothing. -/
theorem rowCells_skipped (num : Numbers D) {rc : RowCtx D} (hno : rc.hasTwa = false)
    (k : Nat) (cells : List Text) :
    runCells (rowCell num) (k + 1) cells rc = .ok rc := by
  induction cells generalizing k with
  | nil => rfl
  | cons cell cells ih =>
      have hstep : rowCell num rc (k + 1) cell = .ok rc := by
        rw [rowCell, if_neg (by omega), if_pos (Or.inl hno)]
      rw [runCells, hstep]
      exact ih (k + 1)

/-! ### A line -/

/-- A line added the row of `cells`. -/
structure RowAdded (num : Numbers D) (p p' : PolarTable D) (cells : List Text) : Prop where
  nTws : p'.nTws = p.nTws
  tws : p'.tws = p.tws
  nTwa : p'.nTwa = p.nTwa + 1
  angle : cellNumber num cells[0]? = some (p'.twa p.nTwa)
  twa : ∀ i, i < p.nTwa → p'.twa i = p.twa i
  order : 0 < p.nTwa → num.lt (p'.twa p.nTwa) (p'.twa (p.nTwa - 1)) = false
  spd : ∀ i, i ≠ p.nTwa → p'.spd i = p.spd i
  cells : ∀ j, j < p.nTws → p'.spd p.nTwa j = stored num (p.spd p.nTwa j) cells[j + 1]?

theorem parseLine_ok {sep : Char} {line : Text}
    (h : parseLine num sep p line = .ok p') :
    (cellNumber num (line.splitOn sep)[0]? = none ∧ p' = p) ∨
      RowAdded num p p' (line.splitOn sep) := by
  rw [parseLine, split_eq_runCells] at h
  split_ifs at h with hmax
  obtain ⟨cell, cells, hcells⟩ : ∃ cell cells, line.splitOn sep = cell :: cells :=
    List.exists_cons_of_ne_nil (List.splitOn_ne_nil _ _)
  rw [hcells] at h ⊢
  rw [runCells, rowCell, if_pos rfl] at h
  cases hnum : cellNum num cell with
  | none =>
      rw [hnum] at h
      simp only [@rowCells_skipped D num ⟨p, p.nTwa, false⟩ rfl 0 cells] at h
      left
      refine ⟨by simpa [cellNumber] using hnum, ?_⟩
      cases h
      rfl
  | some v =>
      rw [hnum] at h
      simp only [] at h
      obtain ⟨rc, hrun, hst⟩ := @rowCells_stored D num
        ⟨{ p with twa := Function.update p.twa p.nTwa v }, p.nTwa, true⟩ rfl 0 cells
      rw [hrun] at h
      have hrest := hst.rest
      simp only [hst.hasTwa, if_true] at h
      split_ifs at h with horder
      cases h
      right
      have hnTwa : rc.p.nTwa = p.nTwa := by rw [hrest]
      have htwa : rc.p.twa = Function.update p.twa p.nTwa v := by rw [hrest]
      refine ⟨by rw [hrest], by rw [hrest], by rw [hrest], ?_, ?_, ?_, hst.others, ?_⟩
      · show cellNumber num (some cell) = some (rc.p.twa p.nTwa)
        rw [htwa, Function.update_self]
        exact hnum
      · intro i hi
        show rc.p.twa i = p.twa i
        rw [htwa, Function.update_of_ne (by omega)]
      · intro hpos
        rw [hnTwa] at horder
        by_contra hlt
        exact horder ⟨hpos, by simpa using hlt⟩
      · intro j hj
        exact hst.cells j hj (Nat.zero_le j)

/-! ### The table -/

/-- The table holds the given rows, and nothing behind them. -/
structure Holds (num : Numbers D) (p : PolarTable D) (rows : List (List Text)) : Prop where
  nTwa : p.nTwa = rows.length
  twa : ∀ i row, rows[i]? = some row → cellNumber num row[0]? = some (p.twa i)
  spd : ∀ i row, rows[i]? = some row → ∀ j, j < p.nTws →
    p.spd i j = speedAt num row (j + 1)
  behind : ∀ i, p.nTwa ≤ i → ∀ j, p.spd i j = num.zero
  order : ∀ i, i + 1 < p.nTwa → num.lt (p.twa (i + 1)) (p.twa i) = false

theorem getElem?_concat {β : Type} {l : List β} {a b : β} {i : Nat}
    (h : (l ++ [a])[i]? = some b) :
    (i < l.length ∧ l[i]? = some b) ∨ (i = l.length ∧ b = a) := by
  rcases Nat.lt_trichotomy i l.length with hlt | rfl | hgt
  · rw [List.getElem?_append_left hlt] at h
    exact Or.inl ⟨hlt, h⟩
  · rw [List.getElem?_concat_length] at h
    exact Or.inr ⟨rfl, (Option.some.inj h).symm⟩
  · rw [List.getElem?_eq_none (by rw [List.length_append, List.length_singleton]; omega)] at h
    cases h

theorem Holds.added {rows : List (List Text)} {cells : List Text}
    (h : Holds num p rows) (ha : RowAdded num p p' cells) :
    Holds num p' (rows ++ [cells]) where
  nTwa := by rw [ha.nTwa, h.nTwa, List.length_append, List.length_singleton]
  twa := by
    intro i row hrow
    rcases getElem?_concat hrow with ⟨hlt, hrow⟩ | ⟨rfl, rfl⟩
    · rw [ha.twa i (by rw [h.nTwa]; exact hlt)]
      exact h.twa i row hrow
    · rw [← h.nTwa]
      exact ha.angle
  spd := by
    intro i row hrow j hj
    rw [ha.nTws] at hj
    rcases getElem?_concat hrow with ⟨hlt, hrow⟩ | ⟨rfl, rfl⟩
    · rw [ha.spd i (by rw [h.nTwa]; omega)]
      exact h.spd i row hrow j hj
    · rw [← h.nTwa, ha.cells j hj, h.behind p.nTwa le_rfl j]
      rfl
  behind := by
    intro i hi j
    rw [ha.nTwa] at hi
    rw [ha.spd i (by omega)]
    exact h.behind i (by omega) j
  order := by
    intro i hi
    rw [ha.nTwa] at hi
    rcases Nat.lt_or_ge (i + 1) p.nTwa with hlt | hge
    · rw [ha.twa i (by omega), ha.twa (i + 1) hlt]
      exact h.order i hlt
    · have hlast : p.nTwa = i + 1 := by omega
      have hord := ha.order (by omega)
      rwa [hlast, Nat.add_sub_cancel] at hord

theorem rows_ok {sep : Char} {ls : List Text} {rows : List (List Text)}
    (h : Holds num p rows)
    (hrun : ls.foldlM (parseLine num sep) p = .ok p') :
    Holds num p' (rows ++ anglesOf num sep ls) ∧ p'.nTws = p.nTws ∧ p'.tws = p.tws := by
  induction ls generalizing p rows with
  | nil =>
      cases hrun
      simpa [anglesOf] using h
  | cons line ls ih =>
      rw [List.foldlM_cons] at hrun
      cases hline : parseLine num sep p line with
      | error e =>
          rw [hline] at hrun
          cases hrun
      | ok p₁ =>
          rw [hline] at hrun
          have hrun' : ls.foldlM (parseLine num sep) p₁ = .ok p' := hrun
          rcases parseLine_ok hline with ⟨hno, rfl⟩ | ha
          · have hskip : anglesOf num sep (line :: ls) = anglesOf num sep ls := by
              simp [anglesOf, hno]
            rw [hskip]
            exact ih h hrun'
          · have hsome : (cellNumber num (line.splitOn sep)[0]?).isSome = true := by
              rw [ha.angle]
              rfl
            have hkeep : anglesOf num sep (line :: ls) =
                line.splitOn sep :: anglesOf num sep ls := by
              simp only [anglesOf, List.map_cons, List.filter_cons, hsome, if_true]
            obtain ⟨hrows, hn, ht⟩ := ih (h.added ha) hrun'
            rw [hkeep]
            refine ⟨?_, hn.trans ha.nTws, ht.trans ha.tws⟩
            simpa using hrows

/-! ### The text -/

/-- An accepted text: the header and the rows are in the table. -/
theorem polarParseString_ok {text : Text}
    (h : polarParseString num text = .ok p) :
    Holds num p (dataRows num text) ∧
      p.nTws = (supplied num text).length ∧
      (∀ j c v, (supplied num text)[j]? = some (c, v) → p.tws j = v) ∧
      (∀ k, k + 1 < p.nTws → num.lt (p.tws (k + 1)) (p.tws k) = false) ∧
      1 ≤ p.nTws ∧ 1 ≤ p.nTwa := by
  rw [polarParseString] at h
  split_ifs at h with htwa
  cases hsep : separator (headerOf text) with
  | none =>
      rw [hsep] at h
      cases h
  | some sep =>
      have hsepOf : sepOf text = sep := by rw [sepOf, hsep, Option.getD_some]
      simp only [hsep, split_eq_runCells] at h
      cases hhdr : runCells (hdrCell num) 0 ((headerOf text).splitOn sep) (emptyTable num) with
      | error e =>
          rw [hhdr] at h
          cases h
      | ok p₁ =>
          simp only [hhdr] at h
          split_ifs at h with hcols
          cases hrows : (bodyOf text).foldlM (parseLine num sep) p₁ with
          | error e =>
              rw [hrows] at h
              cases h
          | ok p₂ =>
              simp only [hrows] at h
              split_ifs at h with hlines
              cases h
              have hsup := header_supplies hhdr
              have hempty : Holds num p₁ [] := by
                rw [hsup.rest]
                exact ⟨rfl, by simp, by simp, fun _ _ _ => rfl, fun i hi => by cases hi⟩
              obtain ⟨hheld, hn, ht⟩ := rows_ok hempty hrows
              have hzero : (emptyTable num).nTws = 0 := rfl
              have hlen := hsup.nTws
              rw [hzero, Nat.zero_add] at hlen
              refine ⟨?_, ?_, ?_, ?_, by omega, by omega⟩
              · rw [dataRows, hsepOf]
                exact hheld
              · rw [hn, hlen, supplied, hsepOf]
              · intro j c v hj
                rw [supplied, hsepOf] at hj
                have hadd := hsup.added j c v hj
                rwa [hzero, Nat.zero_add, ← ht] at hadd
              · rw [hn, ht]
                exact hsup.order fun k hk => by cases hk

/-- Over ordered numbers, an accepted text gives a polar in order. -/
theorem polarParseString_ordered {α : Type} [LinearOrder α] {num : Numbers α}
    (hlt : num.lt = fun x y => decide (x < y)) {text : Text} {p : PolarTable α}
    (h : polarParseString num text = .ok p) :
    Ordered p := by
  obtain ⟨hheld, -, -, htws, hcols, hrows⟩ := polarParseString_ok h
  refine ⟨hrows, hcols, fun i hi => ?_, fun i hi => ?_⟩
  · simpa [hlt] using hheld.order i hi
  · simpa [hlt] using htws i hi

/-- The speeds of an accepted text stand under the wind speeds of their columns if
and only if no row tells the two apart that an unreadable header cell shifts. -/
theorem aligned_iff_unshifted (num : Numbers D) (text : Text) (p : PolarTable D)
    (h : polarParseString num text = .ok p) :
    p.nTwa = (dataRows num text).length ∧
      p.nTws = (supplied num text).length ∧
      (∀ j c v, (supplied num text)[j]? = some (c, v) → p.tws j = v) ∧
      (Aligned num text p ↔ Unshifted num text) := by
  obtain ⟨hheld, hn, htws, -⟩ := polarParseString_ok h
  refine ⟨hheld.nTwa, hn, htws, ?_, ?_⟩
  · intro hal row hrow j c v hj hc
    obtain ⟨i, hi⟩ := List.mem_iff_getElem?.mp hrow
    have hjlt : j < p.nTws := by
      rw [hn]
      exact (List.getElem?_eq_some_iff.mp hj).1
    rw [← hal i row hi j c v hj, hheld.spd i row hi j hjlt]
  · intro hun i row hi j c v hj
    have hjlt : j < p.nTws := by
      rw [hn]
      exact (List.getElem?_eq_some_iff.mp hj).1
    rw [hheld.spd i row hi j hjlt]
    by_cases hc : c = j + 1
    · rw [hc]
    · exact (hun row (List.mem_of_getElem? hi) j c v hj hc).symm

end Columns

/-! ### Two tables -/

/-- Numbers written in digits. -/
def digitNumbers : Numbers ℚ where
  zero := 0
  strtod := fun s =>
    if s.takeWhile Char.isDigit = [] then none
    else some ((digitsValue s : ℚ), s.dropWhile Char.isDigit)
  lt := fun x y => decide (x < y)
  toFloat := fun x => x

/-- A header with an empty cell before its wind speeds. -/
def shiftedText : Text := "TWA\\TWS;;10;20\n90;0;6;7\n".toList

/-- A header without one. -/
def plainText : Text := "TWA\\TWS;10;20;\n90;6;7\n".toList

/-- At 20 knots, the table has the speed of 10 knots. -/
theorem shiftedText_misaligned :
    ∃ p, polarParseString digitNumbers shiftedText = .ok p ∧
      ¬ Aligned digitNumbers shiftedText p := by
  have hok : (polarParseString digitNumbers shiftedText).toOption.isSome = true := rfl
  cases h : polarParseString digitNumbers shiftedText with
  | error e =>
      rw [h] at hok
      cases hok
  | ok p =>
      refine ⟨p, rfl, fun hal => ?_⟩
      obtain ⟨hheld, hn, -⟩ := polarParseString_ok h
      have hrow : (dataRows digitNumbers shiftedText)[0]? =
          some ["90".toList, "0".toList, "6".toList, "7".toList] := rfl
      have htwo : p.nTws = 2 := hn
      have hstored := hheld.spd 0 _ hrow 1 (by omega)
      have hclaimed := hal 0 _ hrow 1 3 20 rfl
      rw [hstored] at hclaimed
      exact absurd hclaimed (by decide)

theorem aligned_iff_unshifted_plain :
    ∃ p, polarParseString digitNumbers plainText = .ok p ∧
      Aligned digitNumbers plainText p := by
  have hok : (polarParseString digitNumbers plainText).toOption.isSome = true := rfl
  cases h : polarParseString digitNumbers plainText with
  | error e =>
      rw [h] at hok
      cases hok
  | ok p =>
      refine ⟨p, rfl, (aligned_iff_unshifted digitNumbers plainText p h).2.2.2.mpr ?_⟩
      have hsup : supplied digitNumbers plainText = [(1, 10), (2, 20)] := rfl
      intro row hrow j c v hj hc
      rw [hsup] at hj
      rcases j with _ | _ | j
      · simp at hj
        omega
      · simp at hj
        omega
      · simp at hj

end Polar
end N2kMux
