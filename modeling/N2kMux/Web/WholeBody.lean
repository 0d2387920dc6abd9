import Mathlib.Data.List.TakeWhile
import N2kMux.Web.Client

/-!
# Only whole bodies reach a handler

The bytes that arrive can be split in any manner over the calls of `recv`, and
can end anywhere.  What `handle_client` does is the same for every split: when
the headers are complete, reading past the blank line changes nothing of what
they say, and a handler gets exactly the bytes that they announce.
-/

namespace N2kMux
namespace Web

open CText

section Receiving

variable {req : Text} {s : Socket}

theorem recv_append (s : Socket) (room : Nat) :
    (s.recv room).1 ++ (s.recv room).2.rest = s.rest :=
  List.take_append_drop _ _

theorem recv_length_le (s : Socket) (room : Nat) :
    (s.recv room).1.length ≤ room := by
  simp only [Socket.recv, List.length_take]
  omega

/-- Nothing is received only when nothing arrives any more. -/
theorem rest_of_recv_nil {room : Nat}
    (hroom : 0 < room)
    (h : (s.recv room).1 = []) :
    s.rest = [] := by
  have hlen := congrArg List.length h
  simp only [Socket.recv, List.length_take, List.length_nil] at hlen
  exact List.length_eq_zero_iff.mp (by omega)

theorem cstr_of_not_mem {buf : Text}
    (h : '\x00' ∉ buf) :
    cstr buf = buf := by
  refine List.takeWhile_eq_self_iff.mpr fun c hc => ?_
  have hne : c ≠ '\x00' := fun heq => h (heq ▸ hc)
  simpa using hne

/-- A longer buffer holds a longer string. -/
theorem cstr_prefix {a b : Text}
    (h : a <+: b) :
    cstr a <+: cstr b := by
  obtain ⟨t, rfl⟩ := h
  rw [cstr, cstr, List.takeWhile_append]
  split
  · next hall =>
      rw [(List.takeWhile_prefix _).eq_of_length hall]
      exact List.prefix_append a _
  · exact List.prefix_rfl

/-- The blank line is in the buffer. -/
def Found (buf : Text) : Prop := (strstr (cstr buf) blankLine).isSome

instance (buf : Text) : Decidable (Found buf) :=
  inferInstanceAs (Decidable (_ = true))

theorem Found.mono {a b : Text}
    (h : Found a)
    (hpre : a <+: b) :
    Found b := by
  obtain ⟨t, ht⟩ := cstr_prefix hpre
  obtain ⟨⟨x, y⟩, hxy⟩ := Option.isSome_iff_exists.mp h
  have happ := search_append (word_isPrefixOf blankLine) t hxy
  rw [ht] at happ
  exact Option.isSome_iff_exists.mpr ⟨_, happ⟩

/-- The first loop keeps what it receives in order, within the buffer, and stops
at the blank line, at the end of what arrives, or with the buffer full. -/
theorem readHeaders_spec (req : Text) (s : Socket)
    (hfits : req.length ≤ reqMax - 1) :
    (readHeaders req s).1 ++ (readHeaders req s).2.rest = req ++ s.rest ∧
      (readHeaders req s).1.length ≤ reqMax - 1 ∧
      (Found (readHeaders req s).1 ∨ (readHeaders req s).2.rest = [] ∨
        (readHeaders req s).1.length = reqMax - 1) := by
  fun_induction readHeaders req s with
  | case1 req s hlt hnil =>
      exact ⟨rfl, hfits, .inr (.inl (rest_of_recv_nil (by omega) hnil))⟩
  | case2 req s hlt c got hgot hfound =>
      have happ := recv_append s (reqMax - 1 - req.length)
      have hlen := recv_length_le s (reqMax - 1 - req.length)
      rw [hgot] at happ hlen
      refine ⟨by rw [List.append_assoc, happ], ?_, .inl hfound⟩
      rw [List.length_append]
      omega
  | case3 req s hlt c got hgot hfound ih =>
      have happ := recv_append s (reqMax - 1 - req.length)
      have hlen := recv_length_le s (reqMax - 1 - req.length)
      rw [hgot] at happ hlen
      have hnext := ih (by rw [List.length_append]; omega)
      rw [List.append_assoc, happ] at hnext
      exact hnext
  | case4 req s hlt =>
      refine ⟨rfl, hfits, .inr (.inr ?_)⟩
      exact Nat.le_antisymm hfits (Nat.not_lt.mp hlt)

/-- The second loop keeps what it receives in order, and stops when there is
enough or nothing arrives any more. -/
theorem readBody_spec (skip want : Nat) (req : Text) (s : Socket)
    (hroom : skip + want ≤ reqMax - 1)
    (hskip : skip ≤ req.length) :
    ∃ later, readBody skip want req s ++ later = req ++ s.rest ∧
      (skip + want ≤ (readBody skip want req s).length ∨ later = []) := by
  fun_induction readBody skip want req s with
  | case1 req s hlt hnil =>
      exact ⟨s.rest, rfl, .inr (rest_of_recv_nil (by omega) hnil)⟩
  | case2 req s hlt c got hgot ih =>
      have happ := recv_append s (reqMax - 1 - req.length)
      rw [hgot] at happ
      obtain ⟨later, hlater, hend⟩ := ih (by rw [List.length_append]; omega)
      rw [List.append_assoc, happ] at hlater
      exact ⟨later, hlater, hend⟩
  | case3 req s hlt =>
      exact ⟨s.rest, rfl, .inl (by omega)⟩

/-- Without a blank line the first loop reads all there is room for. -/
theorem readHeaders_of_not_found
    (h : ¬ Found (s.rest.take (reqMax - 1))) :
    (readHeaders [] s).1 = s.rest.take (reqMax - 1) := by
  obtain ⟨happ, hlen, hend⟩ := readHeaders_spec [] s (Nat.zero_le _)
  rw [List.nil_append] at happ
  have hpre : (readHeaders [] s).1 <+: s.rest.take (reqMax - 1) := by
    rw [← happ, List.prefix_take_iff]
    exact ⟨List.prefix_append _ _, hlen⟩
  rcases hend with hfound | hrest | hfull
  · exact absurd (hfound.mono hpre) h
  · rw [hrest, List.append_nil] at happ
    rw [happ, List.take_of_length_le (happ ▸ hlen)]
  · refine hpre.eq_of_length ?_
    have := hpre.length_le
    rw [List.length_take] at this ⊢
    omega

/-- With a blank line the first loop stops behind it. -/
theorem readHeaders_of_found
    (h : Found (s.rest.take (reqMax - 1))) :
    Found (readHeaders [] s).1 := by
  obtain ⟨happ, hlen, hend⟩ := readHeaders_spec [] s (Nat.zero_le _)
  rw [List.nil_append] at happ
  rcases hend with hfound | hrest | hfull
  · exact hfound
  · rw [hrest, List.append_nil] at happ
    rw [happ]
    exact h.mono (List.take_prefix _ _)
  · have heq : (readHeaders [] s).1 = s.rest.take (reqMax - 1) := by
      rw [← happ, ← hfull, List.take_left]
    rw [heq]
    exact h

end Receiving

section Words

variable {s w r : Text}

/-- The characters of the words of a text. -/
def inked (s : Text) : Text := s.filter (fun c => !isSpace c)

theorem isSpace_toLower {c : Char}
    (h : isSpace c = true) :
    isSpace c.toLower = true := by
  simp only [isSpace, Bool.or_eq_true, decide_eq_true_eq] at h
  rcases h with ((((rfl | rfl) | rfl) | rfl) | rfl) | rfl <;> rfl

theorem length_inked_lower_le (s : Text) :
    (inked (lower s)).length ≤ (inked s).length := by
  induction s with
  | nil => exact Nat.le_refl _
  | cons c s ih =>
      have hcons : lower (c :: s) = c.toLower :: lower s := rfl
      simp only [inked] at ih
      rw [hcons, inked, inked, List.filter_cons, List.filter_cons]
      by_cases hc : isSpace c = true
      · simpa [hc, isSpace_toLower hc] using ih
      · split <;> simp [hc] <;> omega

theorem takeWhile_append_stop {p : Char → Bool} {c : Char}
    (hc : p c = false) (s t : Text) :
    (s ++ c :: t).takeWhile p = s.takeWhile p := by
  rw [List.takeWhile_append]
  split
  · next hall =>
      rw [(List.takeWhile_prefix _).eq_of_length hall]
      simp [hc]
  · rfl

/-- What `%ns` reads of a text, and what it leaves. -/
theorem scanWord_spec {n : Nat}
    (h : scanWord n s = some (w, r)) :
    w ≠ [] ∧ w.length ≤ n ∧ s.dropWhile isSpace = w ++ r := by
  simp only [scanWord] at h
  split at h
  · cases h
  · next hne =>
      obtain ⟨rfl, rfl⟩ := Prod.mk.inj (Option.some.inj h)
      refine ⟨hne, List.length_take_le _ _, ?_⟩
      have hpre : ((s.dropWhile isSpace).takeWhile fun c => !isSpace c).take n <+:
          s.dropWhile isSpace :=
        (List.take_prefix _ _).trans (List.takeWhile_prefix _)
      conv_lhs => rw [← List.take_append_drop
        (((s.dropWhile isSpace).takeWhile fun c => !isSpace c).take n).length
        (s.dropWhile isSpace)]
      rw [← List.prefix_iff_eq_take.mp hpre]

theorem inked_dropWhile (s : Text) : inked (s.dropWhile isSpace) = inked s := by
  induction s with
  | nil => rfl
  | cons c s ih =>
      by_cases hc : isSpace c = true
      · simpa [inked, hc] using ih
      · simp [hc]

/-- A word is read as long as one is left. -/
theorem scanWord_of_inked {n : Nat}
    (hn : 0 < n)
    (h : inked s ≠ []) :
    ∃ w r, scanWord n s = some (w, r) := by
  cases hd : s.dropWhile isSpace with
  | nil =>
      rw [← inked_dropWhile, hd] at h
      exact absurd rfl h
  | cons c d =>
      have hc : isSpace c = false := by
        have := List.dropWhile_get_zero_not isSpace s (by rw [hd]; exact Nat.succ_pos _)
        simpa [hd] using this
      have hne : ((c :: d).takeWhile fun c => !isSpace c).take n ≠ [] := by
        obtain ⟨k, rfl⟩ := Nat.exists_eq_succ_of_ne_zero hn.ne'
        simp [hc]
      exact ⟨_, _, by rw [scanWord, hd, if_neg hne]⟩

/-- What follows behind a space is not looked at. -/
theorem scanWord_append {n : Nat} {c : Char}
    (h : scanWord n s = some (w, r))
    (hc : isSpace c = true) (t : Text) :
    scanWord n (s ++ c :: t) = some (w, r ++ c :: t) := by
  obtain ⟨hw, -, hs⟩ := scanWord_spec h
  have hne : s.dropWhile isSpace ≠ [] := by
    rw [hs]
    simp [hw]
  have hdrop : (s ++ c :: t).dropWhile isSpace = s.dropWhile isSpace ++ c :: t := by
    rw [List.dropWhile_append, if_neg (by simpa using hne)]
  simp only [scanWord] at h ⊢
  rw [hdrop, takeWhile_append_stop (by simp [hc])]
  split at h
  · cases h
  · next hword =>
      obtain ⟨rfl, rfl⟩ := Prod.mk.inj (Option.some.inj h)
      have hlen := (List.takeWhile_prefix (l := s.dropWhile isSpace)
        (fun c => !isSpace c)).length_le
      rw [if_neg hword, List.drop_append_of_le_length]
      exact (List.length_take_le' _ _).trans hlen

/-- The method and the path stand in the headers when these have enough words. -/
theorem methodPath_append {c : Char}
    (h : 7 < (inked s).length)
    (hc : isSpace c = true) (t : Text) :
    methodPath (s ++ c :: t) = methodPath s := by
  obtain ⟨m, r, hm⟩ := scanWord_of_inked (n := 7) (by omega)
    (List.ne_nil_of_length_pos (by omega : 0 < (inked s).length))
  obtain ⟨-, hlen, hs⟩ := scanWord_spec hm
  have hr : 0 < (inked r).length := by
    have hcount := congrArg (fun t => (inked t).length) hs
    have happ : inked (m ++ r) = inked m ++ inked r := List.filter_append _ _
    simp only [inked_dropWhile, happ, List.length_append] at hcount
    have : (inked m).length ≤ m.length := List.length_filter_le _ _
    omega
  obtain ⟨q, r', hp⟩ := scanWord_of_inked (n := 255) (by omega)
    (List.ne_nil_of_length_pos hr)
  simp only [methodPath, hm, hp, scanWord_append hm hc t, scanWord_append hp hc t]

end Words

section Headers

variable {auth : Option Text} {head : Text} {n : Nat}

/-- The headers announce `n` bytes: the first `Content-Length` gives a decimal
number and nothing else. -/
def Announces (head : Text) (n : Nat) : Prop :=
  ∃ before name blanks digits after line,
    strcasestrAt head contentLength =
        some (before, name ++ (blanks ++ (digits ++ (after ++ line)))) ∧
      name.length = contentLength.length ∧
      (∀ c ∈ blanks ++ after, c = ' ' ∨ c = '\t') ∧
      digits ≠ [] ∧ (∀ c ∈ digits, c.isDigit = true) ∧
      Nat.ofDigitChars 10 digits 0 = n ∧
      (line = [] ∨ line.head? = some '\r')

/-- The header part of a request: it ends at the first blank line, the client is
known by it, it carries `X-N2K-Mux`, and it announces `n` bytes. -/
structure Request (auth : Option Text) (head : Text) (n : Nat) : Prop where
  ends : strstr (head ++ blankLine) blankLine = some (head, blankLine)
  known : authed auth head = true
  asked : (strcasestrAt head xN2kMux).isSome
  announces : Announces head n

theorem strstr_self {s w a b : Text}
    (h : strstr s w = some (a, b)) :
    s = a ++ b ∧ w <+: b := by
  obtain ⟨hs, hw⟩ := search_eq_some h
  exact ⟨hs, List.isPrefixOf_iff_prefix.mp hw⟩

/-- A word stands where it is found. -/
theorem strcasestrAt_append {s w a b : Text}
    (h : strcasestrAt s w = some (a, b)) (t : Text) :
    strcasestrAt (s ++ t) w = some (a, b ++ t) :=
  search_append ( word_caseprefix w) t h

theorem authToken_append (s t : Text) :
    authToken (s ++ '\r' :: t) = authToken s := by
  rw [authToken, authToken, takeWhile_append_stop (by simp)]

/-- A client known by the headers is known by whatever is received. -/
theorem authed_append (h : authed auth head = true) (t : Text) :
    authed auth (head ++ '\r' :: t) = true := by
  cases auth with
  | none => rfl
  | some expected =>
      simp only [authed] at h ⊢
      split at h
      · cases h
      · next a b hauth =>
          split at h
          · cases h
          · next a' b' hbasic =>
              have hlen : 6 ≤ b'.length :=
                ( word_caseprefix _).le (search_eq_some hbasic).2
              rw [strcasestrAt_append hauth]
              simp only
              rw [strcasestrAt_append hbasic]
              simp only
              rw [List.drop_append_of_le_length hlen, authToken_append]
              exact h

/-- The headers have more characters than a method has. -/
theorem length_inked_of_asked
    (h : (strcasestrAt head xN2kMux).isSome) :
    7 < (inked head).length := by
  obtain ⟨⟨a, b⟩, hab⟩ := Option.isSome_iff_exists.mp h
  obtain ⟨rfl, hb⟩ := search_eq_some hab
  obtain ⟨t, ht⟩ := List.isPrefixOf_iff_prefix.mp hb
  have hword : (inked (lower xN2kMux)).length = 10 := rfl
  have hlower := length_inked_lower_le b
  rw [← ht, inked, List.filter_append, List.length_append] at hlower
  rw [inked, List.filter_append, List.length_append]
  simp only [inked] at hword hlower
  omega

theorem headerBefore_append {name before h : Text}
    (hfind : strcasestrAt head name = some (before, h)) (t : Text) :
    headerBefore (head ++ t) name head.length = some (h ++ t) := by
  have hlen : before.length ≤ head.length := by
    rw [(search_eq_some hfind).1, List.length_append]
    omega
  simp [headerBefore, strcasestrAt_append hfind, Nat.not_lt.mpr hlen]

theorem isSpace_of_blank {c : Char}
    (h : c = ' ' ∨ c = '\t') :
    isSpace c = true := by
  rcases h with rfl | rfl <;> rfl

/-- `strtoul` reads digits behind blanks, up to what is not a digit. -/
theorem strtoul_digits {blanks digits : Text} {c : Char} (t : Text)
    (hblanks : ∀ b ∈ blanks, isSpace b = true)
    (hne : digits ≠ [])
    (hdigits : ∀ d ∈ digits, d.isDigit = true)
    (hc : c.isDigit = false) :
    strtoul (blanks ++ (digits ++ c :: t)) =
      min (Nat.ofDigitChars 10 digits 0) (2 ^ 64 - 1) := by
  obtain ⟨d, ds, rfl⟩ := List.exists_cons_of_ne_nil hne
  have hd : d.isDigit = true := hdigits d List.mem_cons_self
  have hminus : d ≠ '-' := by rintro rfl; simp at hd
  have hplus : d ≠ '+' := by rintro rfl; simp at hd
  have hvalue : digitsValue (d :: ds ++ c :: t) = Nat.ofDigitChars 10 (d :: ds) 0 := by
    rw [digitsValue, takeWhile_append_stop hc, List.takeWhile_eq_self_iff.mpr hdigits]
  rw [strtoul, List.dropWhile_append_of_pos hblanks, List.cons_append,
    List.dropWhile_cons_of_neg (by simp [isSpace_of_isDigit hd])]
  split
  · next heq => exact absurd (List.cons.inj heq).1 hminus
  · next heq => exact absurd (List.cons.inj heq).1 hplus
  · exact congrArg (fun x => min x (2 ^ 64 - 1)) hvalue

/-- What `handle_client` takes for the length of the body. -/
theorem headerBefore_announced (h : Announces head n) (t : Text) :
    ∃ cl, headerBefore (head ++ '\r' :: t) contentLength head.length = some cl ∧
      strtoul (cl.drop 17) = min n (2 ^ 64 - 1) := by
  obtain ⟨before, name, blanks, digits, after, line, hfind, hname, hblank, hne,
    hdigits, rfl, hline⟩ := h
  refine ⟨_, headerBefore_append hfind _, ?_⟩
  have hstop : ∃ c t', after ++ line ++ '\r' :: t = c :: t' ∧ c.isDigit = false := by
    cases after with
    | cons c after =>
        refine ⟨c, _, rfl, ?_⟩
        rcases hblank c (by simp) with rfl | rfl <;> rfl
    | nil =>
        cases line with
        | nil => exact ⟨'\r', t, rfl, rfl⟩
        | cons c line =>
            refine ⟨c, _, rfl, ?_⟩
            rcases hline with hnil | hcr
            · cases hnil
            · rw [Option.some.inj hcr]
              rfl
  obtain ⟨c, t', htail, hc⟩ := hstop
  have h17 : name.length = 17 := hname
  have hdrop : (name ++ (blanks ++ (digits ++ (after ++ line))) ++ '\r' :: t).drop 17 =
      blanks ++ (digits ++ c :: t') := by
    rw [← htail, List.append_assoc, List.drop_left' h17]
    simp only [List.append_assoc]
  rw [hdrop]
  refine strtoul_digits t' (fun b hb => isSpace_of_blank ?_) hne hdigits hc
  exact hblank b (List.mem_append_left _ hb)

/-- The blank line that is found is the one that ends the headers. -/
theorem found_at (hreq : Request auth head n) {buf rest : Text}
    (hpre : buf <+: head ++ blankLine ++ rest)
    (hfound : Found buf) :
    ∃ e, cstr buf = head ++ (blankLine ++ e) ∧
      strstr (cstr buf) blankLine = some (head, blankLine ++ e) := by
  obtain ⟨⟨a, b⟩, hab⟩ := Option.isSome_iff_exists.mp hfound
  obtain ⟨u, hu⟩ := (List.takeWhile_prefix _).trans hpre
  have hbuf := search_append (word_isPrefixOf blankLine) u hab
  have hall := search_append (word_isPrefixOf blankLine) rest hreq.ends
  rw [show cstr buf ++ u = head ++ blankLine ++ rest from hu] at hbuf
  obtain ⟨rfl, -⟩ := Prod.mk.inj (Option.some.inj (hbuf.symm.trans hall))
  obtain ⟨hcstr, e, rfl⟩ := strstr_self hab
  exact ⟨e, hcstr, hab⟩

end Headers

section Replies

variable {auth : Option Text} {head : Text} {n : Nat}

/-- The reply when no blank line arrives in time. -/
def unfinished (auth : Option Text) (buf : Text) : Reply :=
  if buf = [] then .closed
  else if authed auth (cstr buf) = false then .unauthorized
  else if (methodPath (cstr buf)).1 = "POST".toList then .text 400 "Bad Request" "400\n"
  else if (methodPath (cstr buf)).1 = "GET".toList then
    getReply (methodPath (cstr buf)).2
  else .text 400 "Bad Request" "400\n"

/-- The reply to a POST with these headers when `received` is all that arrives. -/
def answerPost (head : Text) (n : Nat) (received : Text) : Reply :=
  if reqMax - 1 < head.length + 4 + n then .text 413 "Payload Too Large" "413\n"
  else if received.length < head.length + 4 + n then
    .text 400 "Bad Request" "400 : corps incomplet\n"
  else
    postReply (methodPath head).2 (cstr ((received.drop (head.length + 4)).take n))

/-- The reply to a request with these headers when `received` is all that
arrives. -/
def answer (head : Text) (n : Nat) (received : Text) : Reply :=
  if (methodPath head).1 = "POST".toList then answerPost head n received
  else if (methodPath head).1 = "GET".toList then getReply (methodPath head).2
  else .text 400 "Bad Request" "400\n"

theorem handled?_getReply (path : Text) : (getReply path).handled? = none := by
  unfold getReply
  split_ifs <;> rfl

theorem handled?_postReply {path body b : Text}
    (h : (postReply path body).handled? = some b) :
    b = body := by
  unfold postReply at h
  split_ifs at h <;> cases h <;> rfl

theorem handled?_unfinished (buf : Text) : (unfinished auth buf).handled? = none := by
  unfold unfinished
  split_ifs
  · rfl
  · rfl
  · rfl
  · exact handled?_getReply _
  · rfl

theorem handleClient_of_not_found {s : Socket}
    (h : ¬ Found (s.rest.take (reqMax - 1))) :
    handleClient auth s = unfinished auth (s.rest.take (reqMax - 1)) := by
  have hbuf := readHeaders_of_not_found h
  rcases hread : readHeaders [] s with ⟨buf, s'⟩
  rw [hread] at hbuf
  subst hbuf
  have hnone : strstr (cstr (s.rest.take (reqMax - 1))) blankLine = none :=
    Option.not_isSome_iff_eq_none.mp h
  simp only [handleClient, hread, hnone, unfinished, Option.map_none, handlePost]

/-- What a POST does once the headers are read. -/
theorem handlePost_of_found (hreq : Request auth head n) {buf e path : Text} {s : Socket}
    (hfits : buf.length ≤ reqMax - 1)
    (hbuf : cstr buf = head ++ (blankLine ++ e))
    (hpath : path = (methodPath head).2) :
    handlePost path buf (some head.length) s = answerPost head n (buf ++ s.rest) := by
  have hskip : head.length + 4 ≤ buf.length := by
    have hcut : (cstr buf).length ≤ buf.length := (List.takeWhile_prefix _).length_le
    rw [hbuf, List.length_append, List.length_append] at hcut
    have : blankLine.length = 4 := rfl
    omega
  obtain ⟨⟨before, x⟩, hx⟩ := Option.isSome_iff_exists.mp hreq.asked
  have hasked := headerBefore_append hx (blankLine ++ e)
  obtain ⟨cl, hcl, hwant⟩ :=
    headerBefore_announced hreq.announces ('\n' :: '\r' :: '\n' :: e)
  have hcl' : headerBefore (head ++ (blankLine ++ e)) contentLength head.length =
      some cl := hcl
  have hreqMax : reqMax = 65536 := rfl
  simp only [handlePost, hbuf, hasked, hcl', hwant, answerPost]
  by_cases hroom : reqMax - 1 < head.length + 4 + n
  · rw [if_pos (by omega), if_pos hroom]
  · have hmin : min n (2 ^ 64 - 1) = n := by omega
    rw [hmin, if_neg (by omega), if_neg hroom]
    obtain ⟨later, hlater, hend⟩ :=
      readBody_spec (head.length + 4) n buf s (by omega) hskip
    have hlen := congrArg List.length hlater
    rw [List.length_append] at hlen
    have hmore : buf.length ≤ (buf ++ s.rest).length :=
      (List.prefix_append buf s.rest).length_le
    by_cases hshort : (buf ++ s.rest).length < head.length + 4 + n
    · rw [if_pos (by omega), if_pos hshort]
    · have henough : head.length + 4 + n ≤
          (readBody (head.length + 4) n buf s).length := by
        rcases hend with henough | rfl
        · exact henough
        · rw [List.length_nil] at hlen
          omega
      rw [if_neg (by omega), if_neg hshort, ← hlater, hpath,
        List.drop_append_of_le_length (by omega),
        List.take_append_of_le_length (by rw [List.length_drop]; omega)]

theorem handleClient_of_found (hreq : Request auth head n) {rest : Text} {s : Socket}
    (hpre : s.rest <+: head ++ blankLine ++ rest)
    (hfound : Found (s.rest.take (reqMax - 1))) :
    handleClient auth s = answer head n s.rest := by
  have hbuf := readHeaders_of_found hfound
  obtain ⟨happ, hfits, -⟩ := readHeaders_spec [] s (Nat.zero_le _)
  rcases hread : readHeaders [] s with ⟨buf, s'⟩
  rw [hread] at hbuf happ hfits
  simp only [List.nil_append] at hbuf happ hfits
  obtain ⟨e, hcstr, hat⟩ :=
    found_at hreq ((happ ▸ List.prefix_append buf s'.rest).trans hpre) hbuf
  have hne : buf ≠ [] := by
    rintro rfl
    have := congrArg List.length hcstr
    rw [List.length_append, List.length_append] at this
    have hblank : blankLine.length = 4 := rfl
    simp [cstr] at this
    omega
  have hwords : methodPath (head ++ (blankLine ++ e)) = methodPath head :=
    methodPath_append (length_inked_of_asked hreq.asked) rfl ('\n' :: '\r' :: '\n' :: e)
  have hknown : authed auth (head ++ (blankLine ++ e)) = true :=
    authed_append hreq.known ('\n' :: '\r' :: '\n' :: e)
  rw [hcstr] at hat
  simp only [handleClient, hread, if_neg hne, hcstr, hat, hwords, hknown, Option.map_some,
    Bool.true_eq_false, if_false, handlePost_of_found hreq hfits hcstr rfl, answer, happ]

/-- A handler is called only when all that is announced has arrived and fits. -/
theorem handled?_answer {received body : Text}
    (h : (answer head n received).handled? = some body) :
    head.length + 4 + n ≤ reqMax - 1 ∧ head.length + 4 + n ≤ received.length ∧
      body = cstr ((received.drop (head.length + 4)).take n) := by
  unfold answer at h
  split_ifs at h
  · unfold answerPost at h
    split_ifs at h with hroom hshort
    · cases h
    · cases h
    · exact ⟨Nat.not_lt.mp hroom, Nat.not_lt.mp hshort, handled?_postReply h⟩
  · rw [handled?_getReply] at h
    cases h
  · cases h

theorem length_head_blankLine (head : Text) :
    (head ++ blankLine).length = head.length + 4 :=
  List.length_append

/-- The bytes behind the blank line, once they have arrived. -/
theorem take_drop_received {received rest : Text}
    (hreceived : received <+: head ++ blankLine ++ rest)
    (henough : head.length + 4 + n ≤ received.length) :
    (received.drop (head.length + 4)).take n = rest.take n ∧ (rest.take n).length = n := by
  have hlen := length_head_blankLine head
  obtain ⟨u, hu⟩ := hreceived
  have hrest : received.drop (head.length + 4) ++ u = rest := by
    rw [← List.drop_append_of_le_length (by omega), hu, ← hlen, List.drop_left]
  have hroom : n ≤ (received.drop (head.length + 4)).length := by
    rw [List.length_drop]
    omega
  rw [← hrest, List.take_append_of_le_length hroom]
  exact ⟨rfl, List.length_take_of_le hroom⟩

theorem found_of_whole_head (hreq : Request auth head n) {received rest : Text}
    (hnul : '\x00' ∉ head)
    (hreceived : received <+: head ++ blankLine ++ rest)
    (hlen : (head ++ blankLine).length ≤ received.length)
    (hfits : (head ++ blankLine).length ≤ reqMax - 1) :
    Found (received.take (reqMax - 1)) := by
  have hpre : head ++ blankLine <+: received :=
    List.prefix_of_prefix_length_le (List.prefix_append _ rest) hreceived hlen
  have hclean : cstr (head ++ blankLine) = head ++ blankLine := by
    refine cstr_of_not_mem fun hmem => ?_
    rcases List.mem_append.mp hmem with hhead | hblank
    · exact hnul hhead
    · revert hblank
      decide
  have hfound : Found (head ++ blankLine) := by
    rw [Found, hclean, hreq.ends]
    rfl
  exact hfound.mono (List.prefix_take_iff.mpr ⟨hpre, hfits⟩)

/-- A POST handler gets exactly the bytes that the headers announce, or is not
called; and the reply is a function of the bytes that arrive. -/
theorem whole_body (hreq : Request auth head n)
    {rest received : Text}
    (hnul : '\x00' ∉ rest.take n)
    (hreceived : received <+: head ++ blankLine ++ rest)
    (ready : Nat → Nat) :
    (∀ body, (handleClient auth ⟨received, ready⟩).handled? = some body →
        body = rest.take n ∧ body.length = n) ∧
      (received.length < (head ++ blankLine).length + n ∨
          reqMax - 1 < (head ++ blankLine).length + n →
        (handleClient auth ⟨received, ready⟩).handled? = none) ∧
      ((head ++ blankLine).length + n ≤ received.length →
        (head ++ blankLine).length + n ≤ reqMax - 1 →
        '\x00' ∉ head → (methodPath head).1 = "POST".toList →
        handleClient auth ⟨received, ready⟩ =
          postReply (methodPath head).2 (rest.take n)) ∧
      ∀ ready', handleClient auth ⟨received, ready'⟩ =
        handleClient auth ⟨received, ready⟩ := by
  have hskip := length_head_blankLine head
  by_cases hfound : Found (received.take (reqMax - 1))
  · have hreply : ∀ r, handleClient auth ⟨received, r⟩ = answer head n received :=
      fun r => handleClient_of_found hreq hreceived hfound
    have hbody : head.length + 4 + n ≤ received.length →
        cstr ((received.drop (head.length + 4)).take n) = rest.take n ∧
          (rest.take n).length = n := by
      intro henough
      obtain ⟨heq, hlen⟩ := take_drop_received hreceived henough
      rw [heq, cstr_of_not_mem hnul]
      exact ⟨rfl, hlen⟩
    refine ⟨fun body h => ?_, fun h => ?_, fun henough hfits _ hpost => ?_, fun r => ?_⟩
    · rw [hreply] at h
      obtain ⟨-, henough, rfl⟩ := handled?_answer h
      obtain ⟨heq, hlen⟩ := hbody henough
      rw [heq]
      exact ⟨rfl, hlen⟩
    · rw [hreply]
      rcases hhandled : (answer head n received).handled? with _ | body
      · rfl
      · obtain ⟨hfits, henough, -⟩ := handled?_answer hhandled
        omega
    · rw [hskip] at henough hfits
      rw [hreply, answer, if_pos hpost, answerPost, if_neg (by omega), if_neg (by omega),
        (hbody henough).1]
    · rw [hreply, hreply]
  · have hreply : ∀ r, handleClient auth ⟨received, r⟩ =
        unfinished auth (received.take (reqMax - 1)) :=
      fun r => handleClient_of_not_found (s := ⟨received, r⟩) hfound
    have hnone : (handleClient auth ⟨received, ready⟩).handled? = none := by
      rw [hreply, handled?_unfinished]
    refine ⟨fun body h => ?_, fun _ => hnone, fun henough hfits hhead _ => ?_, fun r => ?_⟩
    · rw [hnone] at h
      cases h
    · exact absurd
        (found_of_whole_head hreq hhead hreceived (by omega) (by omega)) hfound
    · rw [hreply, hreply]

/-- A validation of four bytes, of which two arrive with the headers. -/
theorem whole_body_four_bytes :
    handleClient (some "bjJrOm11eA==".toList)
        ⟨("POST /api/validate HTTP/1.1\r\nAuthorization: Basic bjJrOm11eA==\r\n" ++
          "X-N2K-Mux: 1\r\nContent-Length: 4").toList ++ blankLine ++
            "[r]\n".toList, fun i => i⟩ =
      .configPost "[r]\n".toList false := by
  have hreq : Request (some "bjJrOm11eA==".toList)
      ("POST /api/validate HTTP/1.1\r\nAuthorization: Basic bjJrOm11eA==\r\n" ++
          "X-N2K-Mux: 1\r\nContent-Length: 4").toList 4 :=
    { ends := by decide +kernel
      known := by decide +kernel
      asked := by decide +kernel
      announces := by
        refine ⟨("POST /api/validate HTTP/1.1\r\nAuthorization: Basic bjJrOm11eA==\r\n" ++
          "X-N2K-Mux: 1").toList, contentLength, [' '], ['4'], [], [], ?_, rfl, by simp,
          List.cons_ne_nil _ _, by simp, rfl, .inl rfl⟩
        decide +kernel }
  exact (@whole_body _ _ _ hreq "[r]\n".toList _ (by decide +kernel) List.prefix_rfl
    (fun i => i)).2.2.1 (by decide +kernel) (by decide +kernel) (by decide +kernel)
    (by decide +kernel)

end Replies

end Web
end N2kMux
