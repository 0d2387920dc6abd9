import N2kMux.Lib.Lines

/-!
# The line reader of the daemon (daemon.c)

The main loop takes a line from its own buffer, or else polls the input and
reads what there is.  How the input arrives is an argument: a `Poll` for each
turn of the loop.

The lines do not depend on it.  The buffer always begins where a line begins,
and what is still to be delivered of the stream is a function of the buffer and
of the bytes not yet read.
-/

namespace N2kMux

open CText (IsLine fgets)

/-- `LR_BUF` -/
def lrBuf : Nat := 65536
/-- `sizeof line` in `main` -/
def lineSize : Nat := 8192

/-- `linereader_t` -/
structure LineReader where
  buf : Text
  eof : Bool
  fits : buf.length ≤ lrBuf

/-- What a call of `poll`, and of `read` behind it, finds: nothing, or `n + 1`
bytes if the stream still has that many. -/
inductive Poll where
  | idle
  | ready (n : Nat)
deriving DecidableEq

namespace LineReader

/-- The buffer when the daemon starts. -/
def start : LineReader := { buf := [], eof := false, fits := Nat.zero_le _ }

/-- `lr_fill` when `n + 1` bytes of `rest` can be read: the buffer, and what is
left of the stream. -/
def fill (lr : LineReader) (n : Nat) (rest : Text) : LineReader × Text :=
  if hfull : lrBuf ≤ lr.buf.length then (lr, rest)
  else if rest = [] then ({ lr with eof := true }, rest)
  else
    let r := min (n + 1) (lrBuf - lr.buf.length)
    ({ buf := lr.buf ++ rest.take r
       eof := lr.eof
       fits := by rw [List.length_append, List.length_take]; omega },
      rest.drop r)

/-- `take` in `lr_line`: the length of the next line, if there is one. -/
def take? (lr : LineReader) : Option Nat :=
  match lr.buf.idxOf? '\n' with
  | some nl => some (nl + 1)
  | none =>
      if lrBuf ≤ lr.buf.length then some lr.buf.length
      else if lr.eof ∧ 0 < lr.buf.length then some lr.buf.length
      else none

/-- `lr_line`: what is copied to `out`, and the buffer behind the line. -/
def line? (lr : LineReader) (outsz : Nat) : Option (Text × LineReader) :=
  lr.take?.map fun take =>
    (lr.buf.take (min take (outsz - 1)),
      { buf := lr.buf.drop take
        eof := lr.eof
        fits := Nat.le_trans (by rw [List.length_drop]; omega) lr.fits })

end LineReader

/-- The main loop: the reader, what the stream still holds, and the lines
delivered up to now. -/
structure ReadLoop where
  reader : LineReader
  rest : Text
  lines : List Text
  ended : Bool

namespace ReadLoop

/-- The loop before its first turn. -/
def start (stream : Text) : ReadLoop :=
  { reader := .start, rest := stream, lines := [], ended := false }

/-- A turn of the main loop; the poll only counts when there is no line. -/
def turn (s : ReadLoop) (p : Poll) : ReadLoop :=
  if s.ended then s
  else
    match s.reader.line? lineSize with
    | some (line, reader) =>
        { s with reader := reader, lines := s.lines ++ [line] }
    | none =>
        if s.reader.eof then { s with ended := true }
        else
          match p with
          | .idle => s
          | .ready n =>
              let r := s.reader.fill n s.rest
              { s with reader := r.1, rest := r.2 }

/-- The loop after `n` turns. -/
def run (stream : Text) (polls : Nat → Poll) : Nat → ReadLoop
  | 0 => start stream
  | n + 1 => (run stream polls n).turn (polls n)

end ReadLoop

/-! ### What a call does -/

namespace LineReader

/-- What the reader still has to deliver, when `rest` is still to be read. -/
def pieces (lr : LineReader) (rest : Text) : List Text := fgets lrBuf (lr.buf ++ rest)

/-- Without a line in it, the buffer is the beginning of one. -/
theorem isLine_of_take?_eq_none {lr : LineReader} (h : lr.take? = none) :
    IsLine lr.buf ∧ lr.buf.length < lrBuf ∧ (lr.eof = true → lr.buf = []) := by
  unfold take? at h
  cases hnl : lr.buf.idxOf? '\n' with
  | some nl =>
      rw [hnl] at h
      cases h
  | none =>
      simp only [hnl] at h
      split_ifs at h with hfull heof
      refine ⟨List.idxOf?_eq_none_iff.mp hnl, Nat.lt_of_not_le hfull, fun he => ?_⟩
      refine List.length_eq_zero_iff.mp (Nat.eq_zero_of_not_pos fun hpos => ?_)
      exact heof ⟨he, hpos⟩

/-- The next line is in the buffer, and is not empty. -/
theorem length_of_take? {lr : LineReader} {take : Nat} (h : lr.take? = some take) :
    0 < take ∧ take ≤ lr.buf.length := by
  unfold take? at h
  cases hnl : lr.buf.idxOf? '\n' with
  | some nl =>
      simp only [hnl, Option.some.injEq] at h
      obtain ⟨l, r, hbuf, -, hlen⟩ := CText.exists_of_idxOf?_newline hnl
      rw [hbuf, List.length_append, List.length_cons]
      omega
  | none =>
      have hpos : 0 < lrBuf := by decide
      simp only [hnl] at h
      split_ifs at h with hfull hlast
      · obtain rfl := Option.some.inj h
        exact ⟨Nat.lt_of_lt_of_le hpos hfull, Nat.le_refl _⟩
      · obtain rfl := Option.some.inj h
        exact ⟨hlast.2, Nat.le_refl _⟩

/-- The next line is the first of those to deliver. -/
theorem pieces_of_take? {lr : LineReader} {take : Nat} {rest : Text}
    (heof : lr.eof = true → rest = []) (h : lr.take? = some take) :
    lr.pieces rest =
      lr.buf.take take :: fgets lrBuf (lr.buf.drop take ++ rest) := by
  unfold take? at h
  unfold pieces
  have hfits := lr.fits
  cases hnl : lr.buf.idxOf? '\n' with
  | some nl =>
      simp only [hnl, Option.some.injEq] at h
      obtain ⟨l, r, hbuf, hline, hlen⟩ := CText.exists_of_idxOf?_newline hnl
      have hshort : l.length < lrBuf := by
        rw [hbuf, List.length_append, List.length_cons] at hfits
        omega
      have hpos : take = (l ++ ['\n']).length := by simp [← h, hlen]
      have hsplit : lr.buf = (l ++ ['\n']) ++ r := by simp [hbuf]
      rw [hsplit, hpos, List.take_left, List.drop_left, List.append_assoc,
        List.append_assoc]
      exact CText.fgets_append_newline hline hshort _
  | none =>
      have hline : IsLine lr.buf := List.idxOf?_eq_none_iff.mp hnl
      simp only [hnl] at h
      split_ifs at h with hfull hlast
      · obtain rfl := Option.some.inj h
        have hlen : lr.buf.length = lrBuf := Nat.le_antisymm hfits hfull
        have hpos : 0 < lrBuf := by decide
        rw [List.take_length, List.drop_length]
        exact CText.fgets_append_full hline hpos hlen rest
      · obtain rfl := Option.some.inj h
        rw [heof hlast.1, List.append_nil, List.take_length, List.drop_length]
        exact CText.fgets_last hline (List.ne_nil_of_length_pos hlast.2)
          (Nat.lt_of_not_le hfull)

/-- The end of the stream is seen when nothing is left, and reading moves bytes
into the buffer. -/
theorem fill_spec {lr : LineReader} (n : Nat) (rest : Text)
    (heof : lr.eof = false) (hlen : lr.buf.length < lrBuf) :
    ((lr.fill n rest).1.eof = true → (lr.fill n rest).2 = []) ∧
      (lr.fill n rest).1.buf.length + 2 * (lr.fill n rest).2.length +
          (if (lr.fill n rest).1.eof then 0 else 1) <
        lr.buf.length + 2 * rest.length + 1 := by
  unfold fill
  rw [dif_neg (Nat.not_le_of_lt hlen)]
  by_cases hrest : rest = []
  · rw [if_pos hrest]
    exact ⟨fun _ => hrest, Nat.lt_succ_self _⟩
  · rw [if_neg hrest]
    have hpos : 0 < rest.length := List.length_pos_of_ne_nil hrest
    refine ⟨fun he => ?_, ?_⟩
    · rw [heof] at he
      cases he
    · simp only [heof, List.length_append, List.length_take, List.length_drop]
      simp only [Bool.false_eq_true, if_false]
      omega

/-- Reading does not change what is to be delivered. -/
theorem pieces_fill (lr : LineReader) (n : Nat) (rest : Text) :
    (lr.fill n rest).1.pieces (lr.fill n rest).2 = lr.pieces rest := by
  unfold fill pieces
  split_ifs with hfull hrest
  · rfl
  · rfl
  · rw [List.append_assoc, List.take_append_drop]

end LineReader

/-! ### Runs -/

namespace ReadLoop

/-- The invariant of a run: what was delivered and what is still to be delivered
are the lines of the stream. -/
structure Cuts (stream : Text) (s : ReadLoop) : Prop where
  eof : s.reader.eof = true → s.rest = []
  ended : s.ended = true → s.reader.pieces s.rest = []
  lines : s.lines ++ (s.reader.pieces s.rest).map (List.take (lineSize - 1)) =
    (fgets lrBuf stream).map (List.take (lineSize - 1))

theorem cuts_start (stream : Text) : Cuts stream (start stream) := by
  refine ⟨?_, ?_, rfl⟩
  · intro h
    cases h
  · intro h
    cases h

/-- What is left to do: a byte is read before it is delivered. -/
def left (s : ReadLoop) : Nat :=
  s.reader.buf.length + 2 * s.rest.length + (if s.reader.eof then 0 else 1) +
    if s.ended then 0 else 1

variable {stream : Text} {s : ReadLoop}

/-- A turn that delivers a line. -/
theorem turn_line {take : Nat} (p : Poll) (hended : s.ended = false)
    (htake : s.reader.take? = some take) :
    ∃ reader, reader.buf = s.reader.buf.drop take ∧ reader.eof = s.reader.eof ∧
      s.turn p = { s with
        reader := reader
        lines := s.lines ++ [(s.reader.buf.take take).take (lineSize - 1)] } := by
  unfold ReadLoop.turn LineReader.line?
  rw [hended, if_neg (by decide), htake]
  refine ⟨⟨s.reader.buf.drop take, s.reader.eof, ?_⟩, rfl, rfl, ?_⟩
  · exact Nat.le_trans (by rw [List.length_drop]; omega) s.reader.fits
  · rw [List.take_take, Nat.min_comm]
    rfl

/-- A turn without a line. -/
theorem turn_poll (p : Poll) (hended : s.ended = false)
    (htake : s.reader.take? = none) :
    s.turn p =
      if s.reader.eof then { s with ended := true }
      else
        match p with
        | .idle => s
        | .ready n =>
            { s with
              reader := (s.reader.fill n s.rest).1
              rest := (s.reader.fill n s.rest).2 } := by
  unfold ReadLoop.turn LineReader.line?
  rw [hended, if_neg (by decide), htake]
  rfl

/-- A turn keeps the invariant. -/
theorem Cuts.turn (h : Cuts stream s) (p : Poll) : Cuts stream (s.turn p) := by
  cases hended : s.ended with
  | true =>
      unfold ReadLoop.turn
      rw [hended, if_pos rfl]
      exact h
  | false =>
      cases htake : s.reader.take? with
      | some take =>
          have hpieces := LineReader.pieces_of_take? h.eof htake
          obtain ⟨reader, hbuf, heof, hturn⟩ := turn_line p hended htake
          rw [hturn]
          refine ⟨fun he => h.eof (heof ▸ he), fun he => ?_, ?_⟩
          · rw [hended] at he
            cases he
          · rw [← h.lines, hpieces, List.map_cons, List.append_assoc]
            unfold LineReader.pieces
            rw [hbuf]
            rfl
      | none =>
          obtain ⟨hline, hlen, hempty⟩ := LineReader.isLine_of_take?_eq_none htake
          rw [turn_poll p hended htake]
          cases heof : s.reader.eof with
          | true =>
              rw [if_pos rfl]
              refine ⟨h.eof, fun _ => ?_, h.lines⟩
              unfold LineReader.pieces
              rw [hempty heof, h.eof heof]
              rfl
          | false =>
              rw [if_neg (by decide)]
              cases p with
              | idle => exact h
              | ready n =>
                  refine ⟨(LineReader.fill_spec n s.rest heof hlen).1,
                    fun he => ?_, ?_⟩
                  · rw [hended] at he
                    cases he
                  · rw [LineReader.pieces_fill]
                    exact h.lines

/-- Every turn but an idle one gets further. -/
theorem left_turn (s : ReadLoop) (p : Poll) :
    (s.turn p).left ≤ s.left ∧
      (p ≠ .idle → s.ended = false → (s.turn p).left < s.left) := by
  cases hended : s.ended with
  | true =>
      unfold ReadLoop.turn
      rw [hended, if_pos rfl]
      exact ⟨Nat.le_refl _, fun _ hfalse => by cases hfalse⟩
  | false =>
      cases htake : s.reader.take? with
      | some take =>
          obtain ⟨hpos, hle⟩ := LineReader.length_of_take? htake
          obtain ⟨reader, hbuf, heof, hturn⟩ := turn_line p hended htake
          have hlen : (s.turn p).left + min take s.reader.buf.length = s.left := by
            rw [hturn, left, left, hbuf, heof, List.length_drop]
            simp only
            omega
          omega
      | none =>
          obtain ⟨-, hlen, -⟩ := LineReader.isLine_of_take?_eq_none htake
          rw [turn_poll p hended htake]
          unfold left
          rw [hended]
          cases heof : s.reader.eof with
          | true => simp [heof]
          | false =>
              cases p with
              | idle => simp [hended, heof]
              | ready n =>
                  have hfill := (LineReader.fill_spec n s.rest heof hlen).2
                  simp only [Bool.false_eq_true, if_false] at hfill ⊢
                  omega

theorem Cuts.run (stream : Text) (polls : Nat → Poll) (n : Nat) :
    Cuts stream (run stream polls n) := by
  induction n with
  | zero => exact cuts_start stream
  | succ n ih => exact ih.turn (polls n)

/-- A loop that has ended stays as it is. -/
theorem run_of_ended {polls : Nat → Poll} {n m : Nat}
    (h : (run stream polls n).ended = true) (hnm : n ≤ m) :
    run stream polls m = run stream polls n := by
  induction m, hnm using Nat.le_induction with
  | base => rfl
  | succ m _ ih =>
      rw [run, ih]
      exact if_pos h

theorem left_run_le (stream : Text) (polls : Nat → Poll) {n m : Nat} (hnm : n ≤ m) :
    (run stream polls m).left ≤ (run stream polls n).left := by
  induction m, hnm using Nat.le_induction with
  | base => exact Nat.le_refl _
  | succ m _ ih =>
      exact Nat.le_trans (left_turn (run stream polls m) (polls m)).1 ih

/-- The loop ends, if it is not idle for ever. -/
theorem exists_ended (stream : Text) {polls : Nat → Poll}
    (hready : ∀ n, ∃ m, n ≤ m ∧ polls m ≠ .idle) (n : Nat) :
    ∃ m, n ≤ m ∧ (run stream polls m).ended = true := by
  induction hleft : (run stream polls n).left using Nat.strong_induction_on
    generalizing n with
  | _ k ih =>
      obtain ⟨m, hnm, hm⟩ := hready n
      cases hended : (run stream polls m).ended with
      | true => exact ⟨m, hnm, hended⟩
      | false =>
          have hlt := (left_turn (run stream polls m) (polls m)).2 hm hended
          have hle := left_run_le stream polls hnm
          have hless : (run stream polls (m + 1)).left < k :=
            hleft ▸ Nat.lt_of_lt_of_le hlt hle
          obtain ⟨m', hm', hend⟩ := ih _ hless (m + 1) rfl
          exact ⟨m', by omega, hend⟩

/-- However the stream arrives, the lines delivered are at any time the first
ones of the stream, cut to the buffer of `main`, and the loop ends when it has
delivered all of them. -/
theorem lines_of_stream (stream : Text) (polls : Nat → Poll)
    (hready : ∀ n, ∃ m, n ≤ m ∧ polls m ≠ .idle) :
    (fgets lrBuf stream).flatten = stream ∧
    (∀ n, (run stream polls n).lines <+:
      (fgets lrBuf stream).map (List.take (lineSize - 1))) ∧
    ∃ n, ∀ m, n ≤ m → (run stream polls m).ended = true ∧
      (run stream polls m).lines =
        (fgets lrBuf stream).map (List.take (lineSize - 1)) := by
  refine ⟨CText.flatten_fgetsFrom lrBuf [] stream, fun n => ?_, ?_⟩
  · exact ⟨_, (Cuts.run stream polls n).lines⟩
  · obtain ⟨n, -, hended⟩ := exists_ended stream hready 0
    refine ⟨n, fun m hnm => ?_⟩
    rw [run_of_ended hended hnm]
    have hcuts := Cuts.run stream polls n
    refine ⟨hended, ?_⟩
    rw [← hcuts.lines, hcuts.ended hended, List.map_nil, List.append_nil]

/-- One byte at a time, with an empty poll before each. -/
theorem lines_of_stream_bytes :
    ∃ n, ∀ m, n ≤ m →
      (run "ab\nc".toList (fun i => if i % 2 = 0 then .idle else .ready 0) m).lines =
        ["ab\n".toList, "c".toList] := by
  obtain ⟨-, -, n, h⟩ := lines_of_stream "ab\nc".toList
    (fun i => if i % 2 = 0 then .idle else .ready 0)
    (fun n => ⟨2 * n + 1, by omega, by
      rw [if_neg (by omega)]
      decide⟩)
  exact ⟨n, fun m hm => (h m hm).2.trans (by decide)⟩

end ReadLoop

end N2kMux
