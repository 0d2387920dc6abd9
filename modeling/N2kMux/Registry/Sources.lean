import N2kMux.Lib.Json
import N2kMux.Registry.Model

/-!
# The published sources (sources.c)

`sources_to_json` writes the registry as a JSON document into a buffer, one
`snprintf` after the other, and gives up as soon as one does not fit.
-/

namespace N2kMux
namespace Registry

open CText

/-- The loop of `json_escape`, after `i` characters in a buffer of `sz`. -/
def jsonEscapeFrom (sz i : Nat) : Text → Text
  | [] => []
  | c :: src =>
      if i + 2 < sz then
        if c = '"' ∨ c = '\\' then '\\' :: c :: jsonEscapeFrom sz (i + 2) src
        else c :: jsonEscapeFrom sz (i + 1) src
      else []

/-- `json_escape` -/
def jsonEscape (sz : Nat) (src : Text) : Text := jsonEscapeFrom sz 0 src

/-- `snprintf(buf + n, sz - n, …)` and the test of its result. -/
def put (sz : Nat) (buf piece : Text) : Option Text :=
  if piece.length < sz - buf.length then some (buf ++ piece) else none

/-- The `snprintf` calls one after the other. -/
def putAll (sz : Nat) (pieces : List Text) : Option Text := pieces.foldlM (put sz) []

/-- The comma in front of all but the first. -/
def comma (first : Bool) : Text := if first then [] else [',']

/-- The object of a PGN. -/
def PgnCount.text (p : PgnCount) : Text :=
  "\x7b\"pgn\":".toList ++ decimalInt p.pgn ++ ",\"count\":".toList ++
    decimal p.count.toNat ++ "\x7d".toList

def pgnPieces (first : Bool) : List PgnCount → List Text
  | [] => []
  | p :: ps => (comma first ++ p.text) :: pgnPieces false ps

/-- What is written of a device before its PGNs. -/
def Device.head (d : Device) : Text :=
  "\x7b\"src\":".toList ++ decimalInt d.src ++
    ",\"ident\":\"".toList ++ jsonEscape (identLen * 2) d.ident.text ++
    "\",\"mfg\":\"".toList ++ jsonEscape (mfgLen * 2) d.mfg.text ++
    "\",\"model\":\"".toList ++ jsonEscape (modelLen * 2) d.model.text ++
    "\",\"serial\":\"".toList ++ jsonEscape (serialLen * 2) d.serial.text ++
    "\",\"seen\":".toList ++ decimal d.seen.toNat ++ ",\"pgns\":[".toList

def devicePieces (first : Bool) : List Device → List Text
  | [] => []
  | d :: ds =>
      (comma first ++ d.head) ::
        (pgnPieces true d.pgns.items ++ "]\x7d\n".toList :: devicePieces false ds)

/-- `sources_to_json` -/
def sourcesToJson (r : Registry) (sz : Nat) : Option Text :=
  putAll sz ("[\n".toList :: (devicePieces true r.dev.items ++ ["]\n".toList]))

/-! ### The text that is written -/

open Json

/-- The buffers of the encoder have room for every string of the records. -/
theorem jsonEscapeFrom_eq {sz i : Nat} {src : Text}
    (h : i + 2 * src.length < sz) :
    jsonEscapeFrom sz i src = escapeQuotes src := by
  induction src generalizing i with
  | nil => rfl
  | cons c src ih =>
      rw [List.length_cons] at h
      rw [jsonEscapeFrom, if_pos (by omega), escapeQuotes_cons]
      split
      · rw [ih (by omega)]
        rfl
      · rw [ih (by omega)]
        rfl

theorem jsonEscape_eq {n : Nat} (hn : 0 < n) (b : CBuf n) :
    jsonEscape (n * 2) b.text = escapeQuotes b.text := by
  have := b.fits
  exact jsonEscapeFrom_eq (by omega)

/-- What is written, when everything fits, is all the pieces in order. -/
theorem putAll_eq_some {sz : Nat} {pieces : List Text} {doc : Text}
    (h : putAll sz pieces = some doc) :
    doc = pieces.flatten := by
  have hfrom : ∀ (ps : List Text) (buf : Text), ps.foldlM (put sz) buf = some doc →
      doc = buf ++ ps.flatten := by
    intro ps
    induction ps with
    | nil =>
        intro buf hbuf
        rw [List.flatten_nil, List.append_nil]
        exact (Option.some.inj hbuf).symm
    | cons p ps ih =>
        intro buf hbuf
        rw [List.foldlM_cons] at hbuf
        obtain ⟨next, hput, hrest⟩ := Option.bind_eq_some_iff.mp hbuf
        rw [put] at hput
        split at hput
        · obtain rfl := Option.some.inj hput
          rw [ih _ hrest, List.flatten_cons, List.append_assoc]
        · cases hput
  exact hfrom pieces [] h

theorem flatten_pgnPieces (first : Bool) (ps : List PgnCount) :
    (pgnPieces first ps).flatten =
      if first then separated (ps.map PgnCount.text)
      else ps.flatMap fun p => ',' :: p.text := by
  have hfalse : ∀ ps, (pgnPieces false ps).flatten = ps.flatMap fun p => ',' :: p.text := by
    intro ps
    induction ps with
    | nil => rfl
    | cons p ps ih => simp [pgnPieces, comma, ih]
  cases first with
  | false => exact hfalse ps
  | true =>
      cases ps with
      | nil => rfl
      | cons p ps => simp [pgnPieces, comma, hfalse, separated, List.flatMap_map]

/-- The object of a device, with the newline behind it. -/
def Device.text (d : Device) : Text :=
  d.head ++ (separated (d.pgns.items.map PgnCount.text) ++ "]\x7d\n".toList)

theorem flatten_devicePieces (first : Bool) (ds : List Device) :
    (devicePieces first ds).flatten =
      if first then separated (ds.map Device.text)
      else ds.flatMap fun d => ',' :: d.text := by
  have hfalse : ∀ ds, (devicePieces false ds).flatten =
      ds.flatMap fun d => ',' :: d.text := by
    intro ds
    induction ds with
    | nil => rfl
    | cons d ds ih => simp [devicePieces, comma, ih, flatten_pgnPieces, Device.text]
  cases first with
  | false => exact hfalse ds
  | true =>
      cases ds with
      | nil => rfl
      | cons d ds =>
          simp [devicePieces, comma, hfalse, flatten_pgnPieces, Device.text, separated,
            List.flatMap_map]

/-- What `sources_to_json` writes when it succeeds. -/
theorem sourcesToJson_eq_some {r : Registry} {sz : Nat} {doc : Text}
    (h : r.sourcesToJson sz = some doc) :
    doc = '[' :: ("\n".toList ++ (separated (r.dev.items.map Device.text) ++ ([] ++ [']']))) ++
      "\n".toList := by
  rw [putAll_eq_some h, List.flatten_cons, List.flatten_append, flatten_devicePieces,
    if_pos rfl]
  simp

/-- The strings of a record have no control character. -/
structure Device.Printable (d : Device) : Prop where
  ident : Json.Printable d.ident.text
  mfg : Json.Printable d.mfg.text
  model : Json.Printable d.model.text
  serial : Json.Printable d.serial.text

theorem PgnCount.text_eq (p : PgnCount) :
    p.text = '\x7b' :: (separated
      ([("pgn".toList, decimalInt p.pgn), ("count".toList, decimal p.count.toNat)].map
        fun f => member (quoted f.1) f.2) ++ ['\x7d']) := by
  unfold PgnCount.text
  generalize decimalInt p.pgn = pgn
  generalize decimal p.count.toNat = count
  simp [separated, member, quoted]

theorem value_pgn (p : PgnCount) : Value p.text := by
  rw [PgnCount.text_eq]
  refine Value.record _ (List.cons_ne_nil _ _) fun f hf => ?_
  simp only [List.mem_cons, List.not_mem_nil, or_false] at hf
  rcases hf with rfl | rfl
  · exact ⟨rfl, value_decimalInt _⟩
  · exact ⟨rfl, value_decimal _⟩

theorem value_string {s : Text}
    (h : Json.Printable s) :
    Value (quoted (escapeQuotes s)) :=
  .string (chars_escapeQuotes h)

/-- The members of the object of a device. -/
def Device.fields (d : Device) : List (Text × Text) :=
  [("src".toList, decimalInt d.src),
    ("ident".toList, quoted (escapeQuotes d.ident.text)),
    ("mfg".toList, quoted (escapeQuotes d.mfg.text)),
    ("model".toList, quoted (escapeQuotes d.model.text)),
    ("serial".toList, quoted (escapeQuotes d.serial.text)),
    ("seen".toList, decimal d.seen.toNat),
    ("pgns".toList, '[' :: (separated (d.pgns.items.map PgnCount.text) ++ [']']))]

/-- The format of a device is that of an object with these members. -/
theorem device_layout (src seen pgns ident mfg model serial : Text) :
    "\x7b\"src\":".toList ++ src ++
      ",\"ident\":\"".toList ++ ident ++ "\",\"mfg\":\"".toList ++ mfg ++
      "\",\"model\":\"".toList ++ model ++ "\",\"serial\":\"".toList ++ serial ++
      "\",\"seen\":".toList ++ seen ++ ",\"pgns\":[".toList ++
        (pgns ++ "]\x7d\n".toList) =
    '\x7b' :: (separated (([("src".toList, src), ("ident".toList, quoted ident),
      ("mfg".toList, quoted mfg), ("model".toList, quoted model),
      ("serial".toList, quoted serial), ("seen".toList, seen),
      ("pgns".toList, '[' :: (pgns ++ [']']))] : List (Text × Text)).map
        fun f => member (quoted f.1) f.2) ++ ['\x7d']) ++ ['\n'] := by
  simp [separated, member, quoted]

theorem Device.text_eq (d : Device) :
    d.text = '\x7b' :: (separated (d.fields.map fun f => member (quoted f.1) f.2) ++
      ['\x7d']) ++ ['\n'] := by
  unfold Device.text Device.head Device.fields
  rw [jsonEscape_eq (by decide), jsonEscape_eq (by decide), jsonEscape_eq (by decide),
    jsonEscape_eq (by decide)]
  exact device_layout _ _ _ _ _ _ _

theorem value_pgns (d : Device) :
    Value ('[' :: (separated (d.pgns.items.map PgnCount.text) ++ [']'])) := by
  refine Value.array_padded (a := []) (b := []) (fun t ht => ?_) (by simp [Blank])
    (by simp [Blank])
  obtain ⟨p, -, rfl⟩ := List.mem_map.mp ht
  exact value_pgn p

theorem Device.Printable.value {d : Device}
    (h : d.Printable) :
    Value d.text := by
  rw [Device.text_eq]
  refine Value.before (Value.record _ (List.cons_ne_nil _ _) fun f hf => ?_)
    (by simp [Blank, isBlank])
  simp only [Device.fields, List.mem_cons, List.not_mem_nil, or_false] at hf
  rcases hf with rfl | rfl | rfl | rfl | rfl | rfl | rfl
  · exact ⟨rfl, value_decimalInt _⟩
  · exact ⟨rfl, value_string h.ident⟩
  · exact ⟨rfl, value_string h.mfg⟩
  · exact ⟨rfl, value_string h.model⟩
  · exact ⟨rfl, value_string h.serial⟩
  · exact ⟨rfl, value_decimal _⟩
  · exact ⟨rfl, value_pgns d⟩

/-- The scanner gets behind the object of a device only when its strings have no
control character. -/
theorem Device.guards (d : Device) : Guards d.Printable d.text := by
  have hrecord : Guards
      (∀ f ∈ d.fields, ∀ s, f.2 = quoted (escapeQuotes s) → Json.Printable s) d.text := by
    rw [Device.text_eq]
    refine Guards.mono (Guards.append (guards_record fun f hf => ?_)
      (Passes.guards (v := ['\n']) rfl)) And.left
    simp only [Device.fields, List.mem_cons, List.not_mem_nil, or_false] at hf
    rcases hf with rfl | rfl | rfl | rfl | rfl | rfl | rfl
    · exact ⟨rfl, guards_value (.inl (value_decimalInt _).passes)⟩
    · exact ⟨rfl, guards_value (.inr ⟨_, rfl⟩)⟩
    · exact ⟨rfl, guards_value (.inr ⟨_, rfl⟩)⟩
    · exact ⟨rfl, guards_value (.inr ⟨_, rfl⟩)⟩
    · exact ⟨rfl, guards_value (.inr ⟨_, rfl⟩)⟩
    · exact ⟨rfl, guards_value (.inl (value_decimal _).passes)⟩
    · exact ⟨rfl, guards_value (.inl (value_pgns d).passes)⟩
  refine hrecord.mono fun hall => ?_
  have hstring : ∀ key s, (key, quoted (escapeQuotes s)) ∈ d.fields → Json.Printable s :=
    fun key s hmem => hall _ hmem s rfl
  exact { ident := hstring "ident".toList _ (by simp [Device.fields])
          mfg := hstring "mfg".toList _ (by simp [Device.fields])
          model := hstring "model".toList _ (by simp [Device.fields])
          serial := hstring "serial".toList _ (by simp [Device.fields]) }

/-- The document is well formed exactly when no record has a control character. -/
theorem value_sources_iff {r : Registry} {sz : Nat} {doc : Text}
    (h : r.sourcesToJson sz = some doc) :
    Value doc ↔ ∀ d ∈ r.dev.items, d.Printable := by
  rw [sourcesToJson_eq_some h]
  constructor
  · intro hvalue
    have hguards := (guards_separated fun d (_ : d ∈ r.dev.items) => d.guards).enclosed
      (a := "[\n".toList) (b := "]\n".toList) rfl rfl
    have hscan := hvalue.passes
    refine (hguards [] ?_).1
    rw [Passes] at hscan
    simp at hscan ⊢
    rw [hscan]
    exact Option.some_ne_none _
  · intro hall
    refine Value.before (Value.array_padded (fun t ht => ?_) (by simp [Blank, isBlank])
      (by simp [Blank])) (by simp [Blank, isBlank])
    obtain ⟨d, hd, rfl⟩ := List.mem_map.mp ht
    exact (hall d hd).value

end Registry
end N2kMux
