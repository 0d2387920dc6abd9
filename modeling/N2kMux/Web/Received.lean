import N2kMux.Web.Posted

/-!
# What the page knows of a plain configuration

When the strings of the configuration are printable, trimmed and UTF-8, the page
receives them as they are, and writing them back gives the same entries.
-/

namespace N2kMux
namespace Web

open Config

/-- A string that goes to the page and comes back: printable, nothing to trim, UTF-8. -/
structure ComesBack (b : Browser) (s : Text) : Prop where
  printable : ∀ c ∈ s, 0x20 ≤ c.toNat
  trimmed : trim s = s
  utf8 : b.decode s = s

instance (b : Browser) (s : Text) : Decidable (ComesBack b s) :=
  decidable_of_iff (s.all (fun c => 0x20 ≤ c.toNat) ∧ trim s = s ∧ b.decode s = s)
    ⟨fun h => ⟨by simpa using h.1, h.2.1, h.2.2⟩,
      fun h => ⟨by simpa using h.printable, h.trimmed, h.utf8⟩⟩

/-- A configuration whose strings come back, and whose rules say their mode when a name
has a colon. -/
structure Plain (b : Browser) (c : Config) : Prop where
  talker : ComesBack b c.talker.text
  sources : ∀ s ∈ c.sources.items, ComesBack b s.name.text ∧ ComesBack b s.ident.text
  rules : ∀ r ∈ c.rules.items, ComesBack b r.discriminant.text ∧
    ∀ s ∈ r.sources.items, ComesBack b s.text
  rates : ∀ r ∈ c.rates.items, ComesBack b r.type.text
  talkers : ∀ t ∈ c.talkers.items, ComesBack b t.talker.text
  sentences : ∀ s ∈ c.sentences.items, ComesBack b s.type.text
  colons : ∀ r ∈ c.rules.items, r.mode = .priority →
    ∀ s ∈ r.sources.items, ':' ∉ s.text

/-- Each whitelist fits a line of the file. -/
def ListsFit (c : Config) : Prop :=
  ∀ row ∈ sentenceRows c.sentences.items, row.line.length ≤ lineLen - 1

/-! ### Strings -/

theorem jsonUnescape_cons {c : Char} (h : c ≠ '\\') (s : Text) :
    jsonUnescape (c :: s) = c :: jsonUnescape s := by
  cases s with
  | nil => rfl
  | cons d s =>
      rw [jsonUnescape, if_neg h]

/-- Escaping is undone when there is room for it. -/
theorem jsonUnescape_jsonEscapeFrom {cap : Nat} {s : Text}
    (hprint : ∀ c ∈ s, 0x20 ≤ c.toNat) :
    ∀ {o : Nat}, o + 2 * s.length < cap →
      jsonUnescape (jsonEscapeFrom cap o s) = s := by
  induction s with
  | nil =>
      intro o _
      rfl
  | cons c s ih =>
      intro o ho
      obtain ⟨hc, hs⟩ := List.forall_mem_cons.mp hprint
      rw [List.length_cons] at ho
      unfold jsonEscapeFrom
      rw [if_neg (by omega)]
      split_ifs with hquote hnewline hcontrol
      · have hn : c ≠ 'n' := by
          rcases hquote with rfl | rfl <;> decide
        rw [jsonUnescape, if_pos rfl, if_neg hn, ih hs (by omega)]
      · subst hnewline
        exact absurd hc (by decide)
      · omega
      · rw [jsonUnescape_cons (fun h => hquote (Or.inr h)), ih hs (by omega)]

theorem receives_eq {b : Browser} {s : Text} (h : ComesBack b s)
    (hlen : s.length ≤ identLen - 1) :
    b.receives s = s := by
  have hcap : s.length ≤ 63 := hlen
  have hescape : escLen = 128 := rfl
  unfold Browser.receives jsonEscape
  rw [jsonUnescape_jsonEscapeFrom h.printable (by omega), h.utf8]

theorem mem_eraseDups_pgns {l : List PgnSentence} {pgn : Int} :
    pgn ∈ (l.map PgnSentence.pgn).eraseDups ↔ ∃ s ∈ l, s.pgn = pgn := by
  rw [List.mem_eraseDups, List.mem_map]

/-- A type of a whitelist is one of the configuration. -/
theorem mem_of_mem_sentenceRows {l : List PgnSentence} {row : SentenceRow}
    (h : row ∈ sentenceRows l) {t : Text} (ht : t ∈ row.types) :
    ∃ s ∈ l, s.pgn = row.pgn ∧ s.type.text = t := by
  obtain ⟨pgn, -, rfl⟩ := List.mem_map.mp h
  obtain ⟨s, hs, rfl⟩ := List.mem_map.mp ht
  obtain ⟨hs, hpgn⟩ := List.mem_filter.mp hs
  exact ⟨s, hs, by simpa using hpgn, rfl⟩

/-- The page gets a plain configuration as it is, when the document fits. -/
theorem getRules_eq {b : Browser} {c : Config} (h : Plain b c) :
    getRules b c = if (rulesOf c).text.length < bufLen then some (rulesOf c) else none := by
  have hname : nameLen ≤ identLen := by decide
  have hid : ∀ {n : Nat} (t : CBuf n), n ≤ identLen → ComesBack b t.text →
      b.receives t.text = t.text := fun t hn ht =>
    receives_eq ht (t.fits.trans (by omega))
  have hsources : (rulesOf c).sources.map
      (fun s => (⟨b.receives s.name, b.receives s.ident⟩ : SourceRow)) =
        (rulesOf c).sources := by
    simp only [rulesOf, List.map_map]
    refine List.map_congr_left fun s hs => ?_
    obtain ⟨hn, hi⟩ := h.sources s hs
    simp only [Function.comp_apply, hid _ (by decide) hn, hid _ (by decide) hi]
  have hrules : (rulesOf c).rules.map
      (fun r => { r with disc := b.receives r.disc
                         sources := r.sources.map b.receives }) = (rulesOf c).rules := by
    simp only [rulesOf, List.map_map]
    refine List.map_congr_left fun r hr => ?_
    obtain ⟨hd, hs⟩ := h.rules r hr
    simp only [Function.comp_apply, hid _ (by decide) hd, List.map_map]
    congr 1
    refine List.map_congr_left fun s hsmem => ?_
    exact hid _ (by decide) (hs s hsmem)
  have hrates : (rulesOf c).rates.map (fun r => { r with type := b.receives r.type }) =
      (rulesOf c).rates := by
    simp only [rulesOf, List.map_map]
    refine List.map_congr_left fun r hr => ?_
    simp only [Function.comp_apply, hid _ (by decide) (h.rates r hr)]
  have htalkers : (rulesOf c).talkers.map (fun t => { t with tk := b.receives t.tk }) =
      (rulesOf c).talkers := by
    simp only [rulesOf, List.map_map]
    refine List.map_congr_left fun t ht => ?_
    simp only [Function.comp_apply, hid _ (by decide) (h.talkers t ht)]
  have hsentences : (rulesOf c).sentences.map
      (fun s => { s with types := s.types.map b.receives }) = (rulesOf c).sentences := by
    refine (List.map_congr_left fun row hrow => ?_).trans (List.map_id _)
    have htypes : row.types.map b.receives = row.types := by
      refine (List.map_congr_left fun t ht => ?_).trans (List.map_id _)
      obtain ⟨s, hs, -, rfl⟩ := mem_of_mem_sentenceRows hrow ht
      exact hid _ (by decide) (h.sentences s hs)
    rw [htypes]
    rfl
  have htalker : b.receives (rulesOf c).talker = (rulesOf c).talker :=
    hid _ (by decide) h.talker
  have hdoc : (rulesOf c).mapText b.receives = rulesOf c := by
    unfold Rules.mapText
    rw [hsources, hrules, hrates, htalkers, hsentences, htalker]
  unfold getRules
  rw [hdoc]

/-! ### Entries -/

variable {b : Browser} {c : Config}

theorem writableRule_of_plain (hc : c.WellFormed) (h : Plain b c) {r : Rule}
    (hr : r ∈ c.rules.items) : WritableRule r := by
  have hwf := hc.parts.rules r hr
  obtain ⟨hd, hs⟩ := h.rules r hr
  exact ⟨hwf.pgn, ⟨⟨hwf.discriminant.1, hd.trimmed⟩, hwf.discriminant.2⟩, hwf.ne_nil,
    fun s hsmem => ⟨hwf.sources s hsmem, (hs s hsmem).trimmed⟩, h.colons r hr⟩

theorem isItem_type_of_plain (hc : c.WellFormed) (h : Plain b c) {s : PgnSentence}
    (hs : s ∈ c.sentences.items) : IsItem s.type.text :=
  ⟨(hc.parts.sentences s hs).2.2, (h.sentences s hs).trimmed⟩

/-- The parts of a plain configuration are read back, with the whitelists of any
PGNs. -/
theorem writable_of_plain (hc : c.WellFormed) (h : Plain b c)
    {rows : List SentenceRow} (hrows : ∀ row ∈ rows, WritableSentences row) :
    Writable { c.parts with sentences := rows.flatMap sentencesOf } rows where
  sources := fun s hs => ⟨⟨(hc.parts.sources s hs).1, (h.sources s hs).1.trimmed⟩,
    (hc.parts.sources s hs).2, (h.sources s hs).2.trimmed⟩
  rules := fun _ hr => writableRule_of_plain hc h hr
  ignoreSrc := hc.parts.ignoreSrc
  ignorePgn := hc.parts.ignorePgn
  noN2kPgn := hc.parts.noN2kPgn
  no0183Pgn := hc.parts.no0183Pgn
  rates := fun r hr => ⟨⟨(hc.parts.rates r hr).1, (h.rates r hr).trimmed⟩,
    (hc.parts.rates r hr).2⟩
  talkers := fun t ht => ⟨⟨(hc.parts.talkers t ht).1, (hc.parts.talkers t ht).2.1⟩,
    (hc.parts.talkers t ht).2.2, (h.talkers t ht).trimmed⟩
  lists := hrows
  sentences := rfl

theorem writableSentences_of_plain (hc : c.WellFormed) (h : Plain b c) (hfit : ListsFit c) :
    ∀ row ∈ sentenceRows c.sentences.items, WritableSentences row := by
  intro row hrow
  have hpgn : ∃ s ∈ c.sentences.items, s.pgn = row.pgn := by
    obtain ⟨pgn, hpgn, rfl⟩ := List.mem_map.mp hrow
    exact mem_eraseDups_pgns.mp hpgn
  obtain ⟨s, hs, hsp⟩ := hpgn
  refine ⟨?_, fun t ht => ?_, hfit row hrow⟩
  · rw [← hsp]
    exact ⟨(hc.parts.sentences s hs).1, (hc.parts.sentences s hs).2.1⟩
  · obtain ⟨s, hs, -, rfl⟩ := mem_of_mem_sentenceRows hrow ht
    exact isItem_type_of_plain hc h hs

/-! ### Whitelists grouped by PGN -/

theorem nodup_eraseDups (l : List Int) : l.eraseDups.Nodup := by
  induction hn : l.length using Nat.strong_induction_on generalizing l with
  | _ n ih =>
      cases l with
      | nil => exact List.nodup_nil
      | cons x l =>
          rw [List.eraseDups_cons, List.nodup_cons, List.mem_eraseDups, List.mem_filter]
          refine ⟨by simp, ih _ ?_ _ rfl⟩
          have := List.length_filter_le (fun y => !y == x) l
          simp at hn this ⊢
          omega

/-- A list is its groups. -/
theorem perm_flatMap_filter {β : Type} {f : β → Int} {keys : List Int}
    (hkeys : keys.Nodup) :
    ∀ {l : List β}, (∀ x ∈ l, f x ∈ keys) →
      (keys.flatMap fun k => l.filter (fun x => f x = k)).Perm l := by
  induction keys with
  | nil =>
      intro l hl
      rw [List.eq_nil_iff_forall_not_mem.mpr fun x hx => List.not_mem_nil (hl x hx)]
      exact List.Perm.nil
  | cons k keys ih =>
      intro l hl
      obtain ⟨hk, hkeys⟩ := List.nodup_cons.mp hkeys
      have hrest := ih hkeys (l := l.filter fun x => ¬ f x = k) (by
        intro x hx
        obtain ⟨hx, hne⟩ := List.mem_filter.mp hx
        rcases List.mem_cons.mp (hl x hx) with heq | hmem
        · exact absurd heq (by simpa using hne)
        · exact hmem)
      have hsame : (keys.flatMap fun k' =>
          (l.filter fun x => ¬ f x = k).filter fun x => f x = k') =
            keys.flatMap fun k' => l.filter fun x => f x = k' := by
        refine List.flatMap_congr fun k' hk' => ?_
        rw [List.filter_filter]
        refine List.filter_congr fun x _ => ?_
        by_cases heq : f x = k'
        · have hne : k' ≠ k := fun h => hk (h ▸ hk')
          simp [heq, hne]
        · simp [heq]
      rw [List.flatMap_cons, ← hsame]
      refine (hrest.append_left _).trans ?_
      simpa using List.filter_append_perm (fun x => decide (f x = k)) l

/-- Grouping the whitelists keeps them. -/
theorem perm_sentenceRows (l : List PgnSentence) :
    ((sentenceRows l).flatMap sentencesOf).Perm l := by
  have hgroups : (sentenceRows l).flatMap sentencesOf =
      (l.map PgnSentence.pgn).eraseDups.flatMap fun pgn =>
        l.filter fun s => s.pgn = pgn := by
    unfold sentenceRows
    rw [List.flatMap_map]
    refine List.flatMap_congr fun pgn _ => ?_
    simp only [sentencesOf, List.map_map]
    refine (List.map_congr_left fun s hs => ?_).trans (List.map_id _)
    obtain ⟨-, hpgn⟩ := List.mem_filter.mp hs
    ext1
    · simpa using (of_decide_eq_true hpgn).symm
    · exact CBuf.ofText_text s.type
  rw [hgroups]
  exact perm_flatMap_filter (nodup_eraseDups _) fun s hs =>
    mem_eraseDups_pgns.mpr ⟨s, hs, rfl⟩

/-! ### What is posted -/

/-- The talker when no PGN has its own. -/
theorem talkerFor_eq (c : Config) (pgn : Int) :
    c.talkerFor pgn =
      match c.talkers.items.find? (fun t => t.pgn = pgn ∧ t.talker.text ≠ []) with
      | some t => t.talker.text
      | none => orII c.talker.text := by
  have hdefault : (if c.talker.text ≠ [] then c.talker.text else "II".toList) =
      orII c.talker.text := by
    unfold orII
    rw [ite_not]
  unfold talkerFor
  cases c.talkers.items.find? (fun t => decide (t.pgn = pgn ∧ t.talker.text ≠ [])) with
  | some t => rfl
  | none => exact hdefault

theorem text_ofText_orII (t : CBuf 3) :
    (CBuf.ofText 3 (orII t.text)).text = orII t.text := by
  rw [CBuf.text_ofText]
  refine List.take_of_length_le ?_
  unfold orII
  split_ifs
  · decide
  · exact t.fits

theorem orII_orII (s : Text) : orII (orII s) = orII s := by
  unfold orII
  split_ifs with h h'
  · cases h'
  · rfl
  · rfl

/-- A text changes nothing when its parts fit and answer like the configuration. -/
theorem unchanged_genIni_iff {p : Parts} {rows : List SentenceRow} {talker : CBuf 3}
    (hp : Writable p rows) (htalker : IsValue talker.text) :
    Unchanged c (some (genIni (ofParts talker.text p rows))) ↔
      p.Fits ∧ ∀ d : Config, d.parts = p → d.talker.text = orII talker.text →
        SameAnswers c d := by
  constructor
  · rintro ⟨text, d, htext, hparse, hsame⟩
    obtain rfl := Option.some.inj htext
    obtain ⟨hparts, htalk⟩ := (configParseString_genIni hp htalker).mp hparse
    refine ⟨hparts ▸ d.fits_parts, fun e hparts' htalk' => ?_⟩
    have heq : e = d := ext_parts (hparts'.trans hparts.symm) (by
      rw [htalk]
      ext1
      rw [htalk', text_ofText_orII])
    exact heq ▸ hsame
  · rintro ⟨hfits, hsame⟩
    obtain ⟨d, hparts, htalk⟩ := exists_of_fits hfits (.ofText 3 (orII talker.text))
    exact ⟨_, d, rfl, (configParseString_genIni hp htalker).mpr ⟨hparts, htalk⟩,
      hsame d hparts (by rw [htalk, text_ofText_orII])⟩

end Web
end N2kMux
