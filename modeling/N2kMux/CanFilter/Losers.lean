import N2kMux.CanFilter.Model
import N2kMux.Config.WellFormed
import N2kMux.Daemon.Losers

/-!
# The publisher and the filter

The daemon publishes up to 256 losers, then the PGNs that are cut; n2k-filter
keeps 128 entries.  Both agree exactly when no loser is beyond the 128th entry,
and no PGN has all its occurrences beyond it.
-/

namespace N2kMux
namespace CanFilter

open CText (IsInt decimalInt)

/-- The filter drops what the file says: the losers listed, and every frame of
the PGNs that are cut. -/
def Agrees (f : LosersFile) : Prop :=
  ∀ pgn src, dropHas (dropLoad f.text) pgn src = true ↔
    (pgn, src) ∈ f.losers ∨ pgn ∈ f.cut

/-- The entries of a file: the losers, then the PGNs cut for all addresses. -/
def entries (f : LosersFile) : List (Int × Int) :=
  f.losers ++ f.cut.map fun pgn => (pgn, -1)

/-! ### Reading the lines -/

/-- The line of an entry. -/
def entryLine (x : Int × Int) : Text :=
  decimalInt x.1 ++ [' '] ++ decimalInt x.2

/-- The comment on top of the file. -/
def comment : List Text :=
  ["# n2k-mux : trames à jeter par n2k-filter — perdants (pgn src) et".toList,
    "# PGN coupés en N2K (pgn -1 = toutes sources)".toList]

/-- The file is the comment and a line for each entry. -/
theorem text_eq (f : LosersFile) :
    f.text = CText.unlines (comment ++ (entries f).map entryLine) := by
  have hcomment : ("# n2k-mux : trames à jeter par n2k-filter — perdants (pgn src) et\n" ++
      "# PGN coupés en N2K (pgn -1 = toutes sources)\n").toList =
        CText.unlines comment := by
    rw [String.toList_append]
    simp [CText.unlines, comment]
  have hminus : decimalInt (-1) = "-1".toList := by
    decide +kernel
  unfold LosersFile.text entries
  rw [hcomment]
  simp only [CText.unlines, List.flatMap_append, List.map_append, List.map_map,
    List.flatMap_map, entryLine, hminus, List.append_assoc, Function.comp_apply]
  rfl

/-- The two numbers of an entry fit the variables of the filter. -/
def Readable (x : Int × Int) : Prop := IsInt x.1 ∧ IsInt x.2

/-- A character of the line of an entry. -/
theorem mem_entryLine {x : Int × Int} {c : Char} (h : c ∈ entryLine x) :
    c = ' ' ∨ c = '-' ∨ c.isDigit = true := by
  unfold entryLine at h
  rw [List.mem_append, List.mem_append, List.mem_singleton] at h
  rcases h with (h | h) | h
  · exact Or.inr (CText.mem_decimalInt h)
  · exact Or.inl h
  · exact Or.inr (CText.mem_decimalInt h)

theorem decimalInt_ne_nil (x : Int) : decimalInt x ≠ [] := by
  cases x with
  | ofNat n => exact CText.decimal_ne_nil n
  | negSucc n => exact List.cons_ne_nil _ _

/-- The line of an entry is read back. -/
theorem dropLine_entryLine {x : Int × Int} (h : Readable x) :
    dropLine (entryLine x ++ ['\n']) = some x := by
  obtain ⟨c, r, hcr⟩ := List.exists_cons_of_ne_nil (decimalInt_ne_nil x.1)
  have hhead : (entryLine x ++ ['\n']).head? ≠ some '#' := by
    have hc := CText.mem_decimalInt (x := x.1) (c := c) (by simp [hcr])
    unfold entryLine
    rw [hcr]
    simp only [List.cons_append, List.head?_cons, ne_eq, Option.some.injEq]
    rintro rfl
    simp at hc
  have hfirst : CText.scanInt (entryLine x ++ ['\n']) =
      some (x.1, ' ' :: (decimalInt x.2 ++ ['\n'])) := by
    unfold entryLine
    rw [List.append_assoc, List.append_assoc,
      CText.scanInt_decimalInt_append h.1 (by simp)]
    simp
  have hsecond : CText.scanInt (' ' :: (decimalInt x.2 ++ ['\n'])) =
      some (x.2, ['\n']) := by
    rw [CText.scanInt_space (by decide),
      CText.scanInt_decimalInt_append h.2 (by simp)]
  unfold dropLine
  rw [if_neg hhead, hfirst, Option.bind_some, hsecond]
  rfl

theorem isLine_entryLine (x : Int × Int) : CText.IsLine (entryLine x) := by
  intro h
  have := mem_entryLine h
  simp at this

theorem length_entryLine {x : Int × Int} (h : Readable x) :
    (entryLine x).length < lineLen - 1 := by
  have h1 := CText.length_decimalInt_le h.1
  have h2 := CText.length_decimalInt_le h.2
  unfold entryLine lineLen
  simp only [List.length_append, List.length_singleton]
  omega

theorem comment_lines :
    ∀ l ∈ comment, CText.IsLine l ∧ l.length < lineLen - 1 ∧
      dropLine (l ++ ['\n']) = none := by
  intro l hl
  simp only [comment, List.mem_cons, List.not_mem_nil, or_false] at hl
  rcases hl with rfl | rfl
  · exact ⟨by simp [CText.IsLine], by decide, by decide⟩
  · exact ⟨by simp [CText.IsLine], by decide, by decide⟩

/-- The loop keeps the lines that are entries, as far as they fit. -/
theorem foldl_dropStep (lines : List Text) (l : List (Int × Int)) :
    lines.foldl dropStep (.ofList _ l) =
      .ofList _ (l ++ lines.filterMap dropLine) := by
  induction lines generalizing l with
  | nil => simp
  | cons line lines ih =>
      rw [List.foldl_cons]
      cases h : dropLine line with
      | none =>
          have hstep : dropStep (.ofList _ l) line = .ofList _ l := by
            simp [dropStep, h]
          rw [hstep, ih, List.filterMap_cons_none h]
      | some x =>
          have hstep : dropStep (.ofList _ l) line = .ofList _ (l ++ [x]) := by
            simp [dropStep, h, Table.pushOrDrop_ofList]
          rw [hstep, ih, List.filterMap_cons_some h, List.append_assoc]
          rfl

/-- The filter keeps the first entries of the file. -/
theorem dropLoad_text {f : LosersFile} (h : ∀ x ∈ entries f, Readable x) :
    dropLoad f.text = .ofList _ (entries f) := by
  have hfits : ∀ l ∈ comment ++ (entries f).map entryLine,
      CText.IsLine l ∧ l.length < lineLen - 1 := by
    intro l hl
    rcases List.mem_append.mp hl with hl | hl
    · exact ⟨(comment_lines l hl).1, (comment_lines l hl).2.1⟩
    · obtain ⟨x, hx, rfl⟩ := List.mem_map.mp hl
      exact ⟨isLine_entryLine x, length_entryLine (h x hx)⟩
  have hcomment : (comment.map fun l => l ++ ['\n']).filterMap dropLine = [] := by
    rw [List.filterMap_eq_nil_iff]
    intro l hl
    obtain ⟨l, hl', rfl⟩ := List.mem_map.mp hl
    exact (comment_lines l hl').2.2
  have hentries : ∀ l : List (Int × Int), (∀ x ∈ l, Readable x) →
      ((l.map entryLine).map fun l => l ++ ['\n']).filterMap dropLine = l := by
    intro l hl
    rw [List.map_map, List.filterMap_map]
    refine (List.filterMap_congr fun x hx => ?_).trans (List.filterMap_some)
    exact dropLine_entryLine (hl x hx)
  unfold dropLoad
  rw [text_eq, CText.fgets_unlines hfits, ← Table.ofList_nil, foldl_dropStep,
    List.nil_append, List.map_append, List.filterMap_append, hcomment,
    hentries _ h, List.nil_append]

/-! ### When both agree -/

theorem dropHas_eq_true_iff {set : Table fdropMax (Int × Int)} {pgn src : Int} :
    dropHas set pgn src = true ↔ (pgn, src) ∈ set.items ∨ (pgn, -1) ∈ set.items := by
  unfold dropHas
  rw [List.any_eq_true]
  constructor
  · rintro ⟨⟨p, s⟩, hmem, h⟩
    simp only [Bool.and_eq_true, Bool.or_eq_true, decide_eq_true_eq] at h
    obtain ⟨rfl, rfl | rfl⟩ := h
    · exact Or.inl hmem
    · exact Or.inr hmem
  · rintro (hmem | hmem)
    · exact ⟨_, hmem, by simp⟩
    · exact ⟨_, hmem, by simp⟩

/-- The exact condition on a file whose losers are distinct and have addresses:
the filter keeps all the losers, and an occurrence of each PGN that is cut. -/
theorem agrees_iff_kept {f : LosersFile} (hread : ∀ x ∈ entries f, Readable x)
    (hnodup : f.losers.Nodup) (hsrc : ∀ x ∈ f.losers, 0 ≤ x.2) :
    Agrees f ↔ f.losers.length ≤ fdropMax ∧
      ∀ p ∈ f.cut, p ∈ f.cut.take (fdropMax - f.losers.length) := by
  have hkept : (entries f).take fdropMax = f.losers.take fdropMax ++
      (f.cut.take (fdropMax - f.losers.length)).map fun p => (p, -1) := by
    unfold entries
    rw [List.take_append, List.map_take]
  have hwild : ∀ p, (p, -1) ∉ f.losers := by
    intro p hp
    have := hsrc _ hp
    omega
  have hhas : ∀ pgn src, dropHas (dropLoad f.text) pgn src = true ↔
      (pgn, src) ∈ f.losers.take fdropMax ∨
        pgn ∈ f.cut.take (fdropMax - f.losers.length) := by
    intro pgn src
    rw [dropHas_eq_true_iff, dropLoad_text hread, Table.items_ofList, hkept]
    simp only [List.mem_append, List.mem_map, Prod.mk.injEq, and_true]
    constructor
    · rintro ((h | ⟨p, hp, rfl, rfl⟩) | (h | ⟨p, hp, rfl⟩))
      · exact Or.inl h
      · exact Or.inr hp
      · exact absurd (List.mem_of_mem_take h) (hwild _)
      · exact Or.inr hp
    · rintro (h | h)
      · exact Or.inl (Or.inl h)
      · exact Or.inr (Or.inr ⟨pgn, h, rfl⟩)
  unfold Agrees
  simp only [hhas]
  constructor
  · intro hagrees
    -- an address that no loser has tells whether the PGN is read as cut
    have hcut : ∀ p ∈ f.cut, p ∈ f.cut.take (fdropMax - f.losers.length) := by
      intro p hp
      refine ((hagrees p (-1)).mpr (Or.inr hp)).resolve_left fun h => ?_
      exact hwild p (List.mem_of_mem_take h)
    refine ⟨?_, hcut⟩
    by_contra hlong
    push Not at hlong
    have hx : f.losers[fdropMax] ∈ f.losers := List.getElem_mem hlong
    rcases (hagrees _ _).mpr (Or.inl hx) with h | h
    · obtain ⟨i, hi, hget⟩ := List.mem_iff_getElem.mp h
      rw [List.length_take] at hi
      rw [List.getElem_take] at hget
      have := (List.Nodup.getElem_inj_iff hnodup).mp hget
      omega
    · rw [Nat.sub_eq_zero_of_le (by omega)] at h
      simp at h
  · rintro ⟨hlen, hcut⟩ pgn src
    rw [List.take_of_length_le hlen]
    exact or_congr_right ⟨fun h => List.mem_of_mem_take h, hcut pgn⟩

/-! ### The sets that the daemon can hold -/

variable {α : Type}

/-- The set of the daemon: verdicts of the arbiter on messages that have a PGN
and an address, and publications. -/
inductive Held (α : Type) : DropSet → Prop
  | init : Held α .init
  | update {ds : DropSet} (a : Arbiter) (reg : Registry) (m : Jsonl.Msg α)
      (now : UInt64)
      (held : Held α ds)
      (hasPgn : m.hasPgn = true)
      (hasSrc : m.hasSrc = true)
      (pgn : IsInt m.pgn)
      (src : IsInt m.src) :
      Held α (ds.update m.pgn m.src (a.decide reg m now).1.discriminant
        (a.decide reg m now).1.result now)
  | write {ds : DropSet} (now : UInt64) (cfg : Option Config)
      (held : Held α ds) :
      Held α (ds.write now cfg).1

/-- A verdict that makes a loser is about an address. -/
theorem src_nonneg_of_losing {a : Arbiter} {reg : Registry} {m : Jsonl.Msg α}
    {now : UInt64} (hsrc : m.hasSrc = true)
    (h : (a.decide reg m now).1.result.losing = true) :
    0 ≤ m.src := by
  by_contra hneg
  have hexcluded : Arbiter.excluded a.cfg m = true := by
    unfold Arbiter.excluded Arbiter.srcOf
    simp [hsrc, show m.src < 0 by omega]
  unfold Arbiter.decide at h
  rw [if_pos hexcluded] at h
  cases h

/-- An entry of the set after a verdict is an old one up to its verdict, or the
new one, which loses. -/
theorem mem_update {ds : DropSet} {pgn src : Int} {disc : CBuf Config.discLen}
    {r : Arbiter.Result} {now : UInt64} {x : DropEntry}
    (h : x ∈ (ds.update pgn src disc r now).e.items) :
    (∃ y ∈ ds.e.items, y.pair = x.pair) ∨
      x.pair = (pgn, src) ∧ r.losing = true := by
  have hmodify : ∀ (i : Nat) (f : DropEntry → DropEntry),
      x ∈ (ds.e.modify i f).items → x ∈ ds.e.items ∨
        ∃ y ∈ ds.e.items, x = f y := by
    intro i f hx
    obtain ⟨j, hj⟩ := List.mem_iff_getElem?.mp hx
    rw [Table.items_modify, List.getElem?_modify] at hj
    obtain ⟨y, hy, heq⟩ := Option.map_eq_some_iff.mp hj
    have hy := List.mem_of_getElem? hy
    by_cases hij : i = j
    · exact Or.inr ⟨y, hy, by simpa [hij] using heq.symm⟩
    · rw [if_neg hij] at heq
      exact Or.inl (heq ▸ hy)
  -- what is new loses, or its pair had an entry
  have hnew : ¬ (!r.losing && !ds.e.items.any
      (fun x => x.pgn = pgn ∧ x.src = src)) = true → x.pair = (pgn, src) →
      (∃ y ∈ ds.e.items, y.pair = x.pair) ∨
        x.pair = (pgn, src) ∧ r.losing = true := by
    intro hskip hpair
    cases hlosing : r.losing with
    | true => exact Or.inr ⟨hpair, rfl⟩
    | false =>
        simp only [hlosing, Bool.not_false, Bool.true_and, Bool.not_eq_true',
          Bool.not_eq_false, List.any_eq_true, decide_eq_true_eq] at hskip
        obtain ⟨y, hy, rfl, rfl⟩ := hskip
        exact Or.inl ⟨y, hy, hpair.symm⟩
  unfold DropSet.update at h
  split at h
  · rcases hmodify _ _ h with hx | ⟨y, hy, rfl⟩
    · exact Or.inl ⟨x, hx, rfl⟩
    · exact Or.inl ⟨y, hy, rfl⟩
  · split_ifs at h with hskip
    · exact Or.inl ⟨x, h, rfl⟩
    · simp only at h
      split at h
      · rename_i t hpush
        rw [(Table.push?_eq_some_iff.mp hpush).2, List.mem_append,
          List.mem_singleton] at h
        rcases h with hx | rfl
        · exact Or.inl ⟨x, hx, rfl⟩
        · exact hnew hskip rfl
      · split at h
        · rcases hmodify _ _ h with hx | ⟨y, hy, rfl⟩
          · exact Or.inl ⟨x, hx, rfl⟩
          · exact hnew hskip rfl
        · exact Or.inl ⟨x, h, rfl⟩

/-- The entries of the set fit the file, and have addresses. -/
theorem Held.readable {ds : DropSet} (h : Held α ds) :
    ∀ x ∈ ds.e.items, Readable x.pair ∧ 0 ≤ x.pair.2 := by
  induction h with
  | init =>
      intro x hx
      cases hx
  | update a reg m now _ _ hsrc hpgnInt hsrcInt ih =>
      intro x hx
      rcases mem_update hx with ⟨y, hy, hpair⟩ | ⟨hpair, hlosing⟩
      · rw [← hpair]
        exact ih y hy
      · rw [hpair]
        exact ⟨⟨hpgnInt, hsrcInt⟩, src_nonneg_of_losing hsrc hlosing⟩
  | write now cfg _ ih =>
      intro x hx
      exact ih x (List.mem_filter.mp hx).1

/-- The losing pairs: those that have a recent entry, all of them losing. -/
def losingPairs (ds : DropSet) (now : UInt64) : Finset (Int × Int) :=
  ((ds.purge now).e.items.map DropEntry.pair).toFinset.filter fun p =>
    ∀ y ∈ (ds.purge now).e.items, y.pair = p → y.loser = true

/-- The file lists the losing pairs, each once. -/
theorem losers_spec (ds : DropSet) (now : UInt64) (cfg : Option Config) :
    (ds.write now cfg).2.losers.Nodup ∧
      (ds.write now cfg).2.losers.toFinset = losingPairs ds now := by
  refine ⟨DropSet.nodup_losersFrom _ _ _, ?_⟩
  ext p
  unfold losingPairs
  rw [List.mem_toFinset, Finset.mem_filter, List.mem_toFinset, List.mem_map]
  refine DropSet.mem_losersFrom.trans ?_
  simp

/-- The entries of a published file can be read. -/
theorem readable_write {ds : DropSet} {cfg : Config} (hheld : Held α ds)
    (hcfg : Config.Accepted cfg) (now : UInt64) :
    (∀ x ∈ entries (ds.write now (some cfg)).2, Readable x) ∧
      ∀ x ∈ (ds.write now (some cfg)).2.losers, 0 ≤ x.2 := by
  have hloser : ∀ x ∈ (ds.write now (some cfg)).2.losers,
      Readable x ∧ 0 ≤ x.2 := by
    intro x hx
    obtain ⟨-, ⟨y, hy, rfl⟩, -⟩ := DropSet.mem_losersFrom.mp hx
    exact hheld.readable y (DropSet.mem_purge.mp hy).1
  refine ⟨fun x hx => ?_, fun x hx => (hloser x hx).2⟩
  rcases List.mem_append.mp hx with hx | hx
  · exact (hloser x hx).1
  · obtain ⟨p, hp, rfl⟩ := List.mem_map.mp hx
    exact ⟨hcfg.wellFormed.parts.noN2kPgn p hp, (by decide : IsInt (-1))⟩

/--
When publisher and filter agree.  For every set that the daemon can hold and
every accepted configuration, the filter drops exactly what the published file
says if and only if at most 128 pairs lose, and each PGN of `no_n2k` occurs in
that list among the first ones, as many as the losers leave room for.
-/
theorem agrees_iff {ds : DropSet} {cfg : Config} (hheld : Held α ds)
    (hcfg : Config.Accepted cfg) (now : UInt64) :
    Agrees (ds.write now (some cfg)).2 ↔
      (losingPairs ds now).card ≤ fdropMax ∧
        ∀ p ∈ cfg.noN2kPgn.items,
          p ∈ cfg.noN2kPgn.items.take (fdropMax - (losingPairs ds now).card) := by
  obtain ⟨hread, hsrc⟩ := readable_write hheld hcfg now
  obtain ⟨hnodup, hlosers⟩ := losers_spec ds now (some cfg)
  rw [agrees_iff_kept hread hnodup hsrc, ← hlosers,
    List.toFinset_card_of_nodup hnodup]
  rfl

/-! ### Positions that lose -/

/-- The position PGN loses from the address `i`. -/
def positionLoser (i : Nat) : DropEntry :=
  { pgn := 129025, src := i, disc := .empty, loser := true, last := 0 }

/-- The position PGN loses from the addresses below `n`. -/
def positionLosers (n : Nat) : DropSet :=
  ⟨.ofList _ ((List.range n).map positionLoser)⟩

theorem items_positionLosers {n : Nat} (h : n ≤ dropMax) :
    (positionLosers n).e.items = (List.range n).map positionLoser :=
  List.take_of_length_le (by simpa using h)

/-- Distinct pairs that all lose are all listed. -/
theorem losersFrom_eq_map {all : List DropEntry}
    (hlose : ∀ y ∈ all, y.loser = true) :
    ∀ l before, ((before ++ l).map DropEntry.pair).Nodup →
      DropSet.losersFrom all before l = l.map DropEntry.pair := by
  intro l
  induction l with
  | nil =>
      intro before _
      rfl
  | cons x l ih =>
      intro before hnodup
      have hfirst : (!before.any fun y => y.pair = x.pair) = true := by
        rw [Bool.not_eq_true', List.any_eq_false]
        intro y hy
        rw [decide_eq_true_eq]
        rw [List.map_append, List.nodup_append] at hnodup
        exact hnodup.2.2 _ (List.mem_map_of_mem hy) _ (by simp)
      have hall : (all.all fun y => y.pair ≠ x.pair || y.loser) = true := by
        rw [List.all_eq_true]
        intro y hy
        rw [hlose y hy, Bool.or_true]
      unfold DropSet.losersFrom
      simp only [hfirst, hall, Bool.and_self, if_true, List.map_cons,
        List.singleton_append, List.cons.injEq, true_and]
      exact ih _ (by simpa using hnodup)

theorem losers_positionLosers {n : Nat} (h : n ≤ dropMax) (cfg : Option Config) :
    ((positionLosers n).write 0 cfg).2.losers =
      (List.range n).map fun i : Nat => (129025, (i : Int)) := by
  have hpurge : ((positionLosers n).purge 0).e.items =
      (List.range n).map positionLoser := by
    show ((positionLosers n).e.items.filter _) = _
    rw [items_positionLosers h, List.filter_eq_self]
    intro x hx
    obtain ⟨i, -, rfl⟩ := List.mem_map.mp hx
    exact (by decide : decide ((0 : UInt64) - 0 ≤ dropTimeoutMs) = true)
  show DropSet.losersFrom _ [] _ = _
  rw [hpurge, losersFrom_eq_map, List.map_map]
  · rfl
  · intro y hy
    obtain ⟨i, -, rfl⟩ := List.mem_map.mp hy
    rfl
  · rw [List.nil_append, List.map_map]
    refine List.Nodup.map (fun i j hij => ?_) List.nodup_range
    exact Int.ofNat.inj (Prod.mk.inj hij).2

/-- A position from the address `i`. -/
def positionFrom (i : Nat) : Jsonl.Msg Unit :=
  { Jsonl.Msg.init with hasPgn := true, pgn := 129025, hasSrc := true, src := i }

/-- Two named sources, of which the position PGN lists the first. -/
def positionRule : Config :=
  { Config.init with
    sources := .ofList _ [⟨.ofText _ "A".toList, .ofText _ "SA".toList⟩,
      ⟨.ofText _ "B".toList, .ofText _ "SB".toList⟩]
    rules := .ofList _ [⟨129025, .empty, .priority, .ofList _ [.ofText _ "A".toList]⟩] }

/-- The second source at the address `i`. -/
def secondAt (i : Nat) : Registry :=
  ⟨.ofList _ [{ Registry.Device.fresh with
    src := i, serial := .ofText _ "SB".toList, ident := .ofText _ "SB".toList }]⟩

/-- Wherever it is, the second source is not in the rule. -/
theorem decide_second (i : Nat) :
    let d := ((Arbiter.init positionRule).decide (secondAt i) (positionFrom i) 0).1
    d.result = .rejectNotInRule ∧ d.discriminant = .empty := by
  have hident : Arbiter.identityOf (secondAt i) (positionFrom i) =
      some (.ofText _ "SB".toList) := by
    have hsrc : Arbiter.srcOf (positionFrom i) = i := rfl
    unfold Arbiter.identityOf Registry.bySrc Registry.findBySrc
    rw [hsrc, if_neg (by omega)]
    simp [secondAt, Registry.maxDevices, Registry.identLen]
  have hexcluded : Arbiter.excluded positionRule (positionFrom i) = false := by
    simp [Arbiter.excluded, Arbiter.srcOf, positionFrom, positionRule,
      Config.ignoresSrc, Config.ignoresPgn, Config.init]
  have hname : Arbiter.nameByIdent positionRule (.ofText _ "SB".toList) =
      some (.ofText _ "B".toList) := by
    decide +kernel
  obtain ⟨r, ri, hrule, hslot⟩ : ∃ r ri,
      positionRule.rule 129025 none = some (r, ri) ∧
        r.slotOf (.ofText _ "B".toList) = none :=
    ⟨_, _, rfl, by decide +kernel⟩
  have hdisc : Arbiter.discriminantOf 129025 (positionFrom i) = none := rfl
  have hcfg : (Arbiter.init positionRule).cfg = positionRule := rfl
  have hpgn : (positionFrom i).pgn = 129025 := rfl
  unfold Arbiter.decide
  simp only [hcfg, hpgn, hexcluded, Bool.false_eq_true, if_false, hdisc, hrule,
    hident, Option.bind_some, hname, hslot, true_and]
  rfl

/-- The daemon can hold as many losers as the table has entries. -/
theorem held_positionLosers {n : Nat} (h : n ≤ dropMax) :
    Held Unit (positionLosers n) := by
  induction n with
  | zero => exact Held.init
  | succ n ih =>
      have hstep := Held.update (Arbiter.init positionRule) (secondAt n)
        (positionFrom n) 0 (ih (by omega)) rfl rfl
        (show IsInt 129025 by decide) (show IsInt n by
          unfold dropMax at h
          exact ⟨by omega, by omega⟩)
      obtain ⟨hresult, hdisc⟩ := decide_second n
      rw [hresult, hdisc] at hstep
      have hitems := items_positionLosers (n := n) (by omega)
      have hfind : (positionLosers n).e.items.findIdx? (fun x =>
          x.pgn = 129025 ∧ x.src = (n : Int) ∧ x.disc = .empty) = none := by
        rw [hitems, List.findIdx?_eq_none_iff]
        intro x hx
        obtain ⟨i, hi, rfl⟩ := List.mem_map.mp hx
        have := List.mem_range.mp hi
        simp [positionLoser]
        omega
      have hpush : (positionLosers n).e.push? (positionLoser n) =
          some (positionLosers (n + 1)).e := by
        refine Table.push?_eq_some_iff.mpr ⟨?_, ?_⟩
        · rw [hitems, List.length_map, List.length_range]
          exact h
        · rw [hitems, items_positionLosers h, List.range_succ, List.map_append]
          rfl
      unfold positionLoser at hpush
      have hupdate : (positionLosers n).update 129025 n .empty .rejectNotInRule 0 =
          positionLosers (n + 1) := by
        unfold DropSet.update
        simp only [hfind]
        rw [if_neg (by simp [Arbiter.Result.losing])]
        simp only [Arbiter.Result.losing, reduceCtorEq, decide_false, decide_true,
          Bool.false_or, hpush]
      rw [← hupdate]
      exact hstep

/-- The position loses from the address 0, and the wind is cut. -/
theorem agrees_iff_cut :
    ∃ cfg, Config.configParseString "[output]\nno_n2k = 130306\n".toList = .ok cfg ∧
      (129025, 0) ∈ ((positionLosers 1).write 0 (some cfg)).2.losers ∧
      dropHas (dropLoad ((positionLosers 1).write 0 (some cfg)).2.text) 129025 0 = true ∧
      dropHas (dropLoad ((positionLosers 1).write 0 (some cfg)).2.text) 130306 7 = true ∧
      dropHas (dropLoad ((positionLosers 1).write 0 (some cfg)).2.text) 129025 1 =
        false := by
  refine ⟨{ Config.init with noN2kPgn := .ofList _ [130306] }, by decide +kernel, ?_⟩
  have hcfg : Config.Accepted { Config.init with noN2kPgn := .ofList _ [130306] } :=
    Or.inr ⟨"[output]\nno_n2k = 130306\n".toList, by decide +kernel⟩
  have hheld : Held Unit (positionLosers 1) := held_positionLosers (by decide)
  have hagrees := (agrees_iff hheld hcfg 0).mpr ⟨by decide, by decide⟩
  have hloser : ((129025, 0) : Int × Int) ∈ ((positionLosers 1).write 0
      (some { Config.init with noN2kPgn := .ofList _ [130306] })).2.losers := by
    decide
  refine ⟨hloser, (hagrees 129025 0).mpr (Or.inl hloser),
    (hagrees 130306 7).mpr (Or.inr (by decide)), ?_⟩
  rw [Bool.eq_false_iff]
  intro hhas
  exact absurd ((hagrees 129025 1).mp hhas) (by decide)

/-- With 129 losers one of them is lost. -/
theorem disagrees_full :
    Held Unit (positionLosers 129) ∧
      Config.configParseString [] = .ok Config.init ∧
      (129025, 128) ∈ ((positionLosers 129).write 0 (some .init)).2.losers ∧
      dropHas (dropLoad ((positionLosers 129).write 0 (some .init)).2.text)
        129025 128 = false := by
  have hheld : Held Unit (positionLosers 129) := held_positionLosers (by decide)
  have hcfg : Config.Accepted Config.init := Or.inr ⟨[], rfl⟩
  have hread := (readable_write hheld hcfg 0).1
  have hlosers : ((positionLosers 129).write 0 (some .init)).2.losers =
      (List.range 129).map fun i : Nat => (129025, (i : Int)) :=
    losers_positionLosers (by decide) _
  have hkept : (dropLoad ((positionLosers 129).write 0 (some .init)).2.text).items =
      (List.range 128).map fun i : Nat => (129025, (i : Int)) := by
    rw [dropLoad_text hread, Table.items_ofList, entries, hlosers,
      show ((positionLosers 129).write 0 (some .init)).2.cut = [] from rfl,
      List.map_nil, List.append_nil, ← List.map_take, List.take_range]
    rfl
  refine ⟨hheld, rfl, ?_, Bool.eq_false_iff.mpr fun hhas => ?_⟩
  · rw [hlosers]
    exact List.mem_map.mpr ⟨128, by simp, rfl⟩
  · rw [dropHas_eq_true_iff, hkept] at hhas
    simp at hhas
    omega

end CanFilter
end N2kMux
