import N2kMux.Lib.Base64
import N2kMux.Web.Client

/-!
# The credential of the web interface (web.c)

`main` takes a credential `user:pass` from the command line or from the
environment and keeps its base64 encoding; `authed` compares it with the token
that a request presents.
-/

namespace N2kMux
namespace Web

open CText

/-- `AUTH_RAW_MAX` -/
def authRawMax : Nat := 256

/-! ### Encoding -/

/-- The table `T` of `b64encode`. -/
def b64Table : Text :=
  "ABCDEFGHIJKLMNOPQRSTUVWXYZabcdefghijklmnopqrstuvwxyz0123456789+/".toList

/-- `T[v & 63]` -/
def b64Digit (v : Nat) : Char := b64Table.getD (v &&& 63) '='

/-- What a turn of `b64encode` writes for the `rem` bytes in `v`. -/
def b64Quad (v rem : Nat) : Text :=
  [b64Digit (v >>> 18), b64Digit (v >>> 12),
    if rem ≥ 2 then b64Digit (v >>> 6) else '=',
    if rem ≥ 3 then b64Digit v else '=']

/-- The loop of `b64encode`. -/
def b64Loop (cap : Nat) : List UInt8 → Text → Text
  | [], out => out
  | [a], out =>
      if out.length + 4 < cap then out ++ b64Quad (a.toNat <<< 16) 1 else out
  | [a, b], out =>
      if out.length + 4 < cap then
        out ++ b64Quad (a.toNat <<< 16 ||| b.toNat <<< 8) 2
      else out
  | a :: b :: c :: s, out =>
      if out.length + 4 < cap then
        b64Loop cap s
          (out ++ b64Quad (a.toNat <<< 16 ||| b.toNat <<< 8 ||| c.toNat) 3)
      else out

/-- `b64encode` -/
def b64encode (s : List UInt8) (cap : Nat) : Text := b64Loop cap s []

/-! ### The setup of `main` -/

/-- `g_auth`: the option, or else what the environment holds. -/
def gAuth (option env : Option (List UInt8)) : Option (List UInt8) :=
  match option, env with
  | some cred, _ => some cred
  | none, some (c :: cred) => some (c :: cred)
  | none, _ => none

/-- What `main` makes of the credential: there is no result when the program
ends, and no encoding when the authentication is off. -/
def setupAuth (option env : Option (List UInt8)) : Option (Option Text) :=
  match gAuth option env with
  | none => some none
  | some cred =>
      if 58 ∉ cred then none
      else if cred.length > authRawMax then none
      else some (some (b64encode cred authLen))

/-! ### The standard alphabet -/

theorem length_b64Table : b64Table.length = 64 := rfl

theorem nodup_b64Table : b64Table.Nodup := by decide

theorem pad_notMem_b64Table : '=' ∉ b64Table := by decide

/-- The alphabet of the standard encoding. -/
def b64Standard : Base64.Alphabet where
  digits := b64Table
  pad := '='
  length_digits := length_b64Table
  nodup := nodup_b64Table
  pad_notMem := pad_notMem_b64Table

theorem b64Digit_eq (v : Nat) : b64Digit v = b64Standard.digit (v % 64) := by
  rw [b64Digit, Nat.and_two_pow_sub_one_eq_mod v 6]
  rfl

theorem b64Quad_eq (v : Nat) :
    b64Quad v 1 =
        [b64Standard.digit (v / 262144 % 64), b64Standard.digit (v / 4096 % 64), '=', '='] ∧
      b64Quad v 2 =
        [b64Standard.digit (v / 262144 % 64), b64Standard.digit (v / 4096 % 64),
          b64Standard.digit (v / 64 % 64), '='] ∧
      b64Quad v 3 =
        [b64Standard.digit (v / 262144 % 64), b64Standard.digit (v / 4096 % 64),
          b64Standard.digit (v / 64 % 64), b64Standard.digit (v % 64)] := by
  simp [b64Quad, b64Digit_eq, Nat.shiftRight_eq_div_pow]

/-- The value of a group of bytes. -/
theorem group_value (a b c : UInt8) :
    (a.toNat <<< 16 ||| b.toNat <<< 8 ||| c.toNat) =
      a.toNat * 65536 + b.toNat * 256 + c.toNat := by
  have hb := b.toNat_lt
  have hc := c.toNat_lt
  have hshift : a.toNat <<< 16 ||| b.toNat <<< 8 = (a.toNat * 256 + b.toNat) <<< 8 := by
    rw [show a.toNat <<< 16 = (a.toNat <<< 8) <<< 8 by rw [← Nat.shiftLeft_add],
      ← Nat.shiftLeft_or_distrib, ← Nat.shiftLeft_add_eq_or_of_lt (by omega)]
    simp only [Nat.shiftLeft_eq]
  rw [hshift, ← Nat.shiftLeft_add_eq_or_of_lt (by omega), Nat.shiftLeft_eq]
  ring

/-- With room for the encoding and its NUL, the loop writes all of it. -/
theorem b64Loop_eq {cap : Nat} (s : List UInt8) (out : Text)
    (hroom : out.length + (Base64.encode b64Standard s).length < cap) :
    b64Loop cap s out = out ++ Base64.encode b64Standard s := by
  induction s using Base64.encode.induct generalizing out with
  | case1 => simp [b64Loop, Base64.encode]
  | case2 a =>
      have ha := a.toNat_lt
      have hval := group_value a 0 0
      simp only [UInt8.toNat_zero, Nat.zero_shiftLeft, Nat.or_zero] at hval
      simp only [Base64.encode, List.length_cons, List.length_nil] at hroom
      rw [b64Loop, if_pos (by omega), hval, (b64Quad_eq _).1, Base64.encode]
      congr 4
      · omega
      · omega
  | case3 a b =>
      have ha := a.toNat_lt
      have hb := b.toNat_lt
      have hval := group_value a b 0
      simp only [UInt8.toNat_zero, Nat.or_zero] at hval
      simp only [Base64.encode, List.length_cons, List.length_nil] at hroom
      rw [b64Loop, if_pos (by omega), hval, (b64Quad_eq _).2.1, Base64.encode]
      congr 5
      · omega
      · omega
      · omega
  | case4 a b c s ih =>
      have ha := a.toNat_lt
      have hb := b.toNat_lt
      have hc := c.toNat_lt
      simp only [Base64.encode, List.length_cons] at hroom
      have hquad : b64Quad (a.toNat <<< 16 ||| b.toNat <<< 8 ||| c.toNat) 3 =
          [b64Standard.digit (a.toNat / 4), b64Standard.digit (a.toNat % 4 * 16 + b.toNat / 16),
            b64Standard.digit (b.toNat % 16 * 4 + c.toNat / 64),
            b64Standard.digit (c.toNat % 64)] := by
        have hw : (a.toNat * 65536 + b.toNat * 256 + c.toNat) / 262144 % 64 =
            a.toNat / 4 := by omega
        have hx : (a.toNat * 65536 + b.toNat * 256 + c.toNat) / 4096 % 64 =
            a.toNat % 4 * 16 + b.toNat / 16 := by omega
        have hy : (a.toNat * 65536 + b.toNat * 256 + c.toNat) / 64 % 64 =
            b.toNat % 16 * 4 + c.toNat / 64 := by omega
        have hz : (a.toNat * 65536 + b.toNat * 256 + c.toNat) % 64 = c.toNat % 64 := by
          omega
        rw [group_value, (b64Quad_eq _).2.2, hw, hx, hy, hz]
      rw [b64Loop, if_pos (by omega), hquad, ih _ (by simp; omega), Base64.encode]
      simp

theorem length_encode_standard {cred : List UInt8}
    (hraw : cred.length ≤ authRawMax) :
    (Base64.encode b64Standard cred).length < authLen - 1 := by
  rw [Base64.length_encode]
  simp only [authRawMax, authLen] at *
  omega

theorem b64encode_eq {cred : List UInt8}
    (hraw : cred.length ≤ authRawMax) :
    b64encode cred authLen = Base64.encode b64Standard cred := by
  have hlen := length_encode_standard hraw
  rw [b64encode, b64Loop_eq cred [] (by simp only [List.length_nil]; omega), List.nil_append]

/-- When `main` goes on with authentication, a credential that was not too long has
been encoded. -/
theorem setupAuth_some {option env : Option (List UInt8)} {g : Text}
    (h : setupAuth option env = some (some g)) :
    ∃ cred, gAuth option env = some cred ∧ cred.length ≤ authRawMax ∧
      g = Base64.encode b64Standard cred := by
  rw [setupAuth] at h
  cases hcred : gAuth option env with
  | none => simp [hcred] at h
  | some cred =>
      simp only [hcred] at h
      split_ifs at h with hcolon hlen
      have hraw : cred.length ≤ authRawMax := Nat.le_of_not_lt hlen
      refine ⟨cred, rfl, hraw, ?_⟩
      rw [← b64encode_eq hraw]
      exact (Option.some.inj (Option.some.inj h)).symm

/-! ### Comparing -/

theorem foldl_or_eq_zero (d : Nat) (l : List Nat) :
    l.foldl (fun d x => d ||| x) d = 0 ↔ d = 0 ∧ ∀ x ∈ l, x = 0 := by
  induction l generalizing d with
  | nil => simp
  | cons x l ih =>
      rw [List.foldl_cons, ih, Nat.or_eq_zero_iff]
      simp [and_assoc]

theorem xor_eq_zero (m n : Nat) : m ^^^ n = 0 ↔ m = n := by
  constructor
  · intro h
    calc m = (m ^^^ n) ^^^ n := by rw [Nat.xor_assoc, Nat.xor_self, Nat.xor_zero]
      _ = n := by rw [h, Nat.zero_xor]
  · rintro rfl
    exact Nat.xor_self m

/-- No difference is missed. -/
theorem ctEq_iff (a b : Text) : ctEq a b = true ↔ a = b := by
  rw [ctEq, decide_eq_true_eq, foldl_or_eq_zero, xor_eq_zero]
  constructor
  · rintro ⟨hlen, hall⟩
    apply List.ext_getElem hlen
    intro i ha hb
    have hmem : (a[i].toNat ^^^ b[i].toNat) ∈
        List.zipWith (fun x y => x.toNat ^^^ y.toNat) a b := by
      rw [List.mem_iff_getElem]
      exact ⟨i, by simp [ha, hb], by simp⟩
    exact Char.toNat_inj.mp ((xor_eq_zero _ _).mp (hall _ hmem))
  · rintro rfl
    refine ⟨rfl, fun x hx => ?_⟩
    obtain ⟨i, hi, rfl⟩ := List.mem_iff_getElem.mp hx
    simp

/-! ### The token of a request -/

/-- What ends a token. -/
def endsToken (c : Char) : Bool := c == '\r' || c == '\n' || c == ' '

/-- What follows the first `Basic ` from the first `Authorization:` on. -/
def behindBasic (req : Text) : Option Text :=
  match strcasestrAt req "Authorization:".toList with
  | none => none
  | some (_, h) => (strcasestrAt h "Basic ".toList).map fun r => r.2.drop 6

/-- The token that a request presents, in its whole length. -/
def presented (req : Text) : Option Text :=
  (behindBasic req).map fun b => b.takeWhile fun c => !endsToken c

theorem behindBasic_eq_some {req b : Text}
    (h : behindBasic req = some b) :
    ∃ before at1 between at2,
      strcasestrAt req "Authorization:".toList = some (before, at1) ∧
      strcasestrAt at1 "Basic ".toList = some (between, at2) ∧ b = at2.drop 6 := by
  rcases h1 : strcasestrAt req "Authorization:".toList with _ | ⟨before, at1⟩
  · simp only [behindBasic, h1] at h
    cases h
  · simp only [behindBasic, h1] at h
    obtain ⟨⟨between, at2⟩, h2, hb⟩ := Option.map_eq_some_iff.mp h
    exact ⟨before, at1, between, at2, rfl, h2, hb.symm⟩

theorem authToken_eq (b : Text) :
    authToken b = (b.takeWhile fun c => !endsToken c).take (authLen - 1) := by
  have hstop : (fun c => !endsToken c) = fun c => c != '\r' && c != '\n' && c != ' ' := by
    funext c
    simp [endsToken, bne]
  rw [authToken, hstop]

theorem authed_eq (g req : Text) :
    authed (some g) req =
      match behindBasic req with
      | none => false
      | some b => ctEq (authToken b) g := by
  rcases h1 : strcasestrAt req "Authorization:".toList with _ | ⟨a, h⟩
  · simp only [authed, behindBasic, h1]
  · rcases h2 : strcasestrAt h "Basic ".toList with _ | ⟨a', b⟩
    · simp only [authed, behindBasic, h1, h2, Option.map_none]
    · simp only [authed, behindBasic, h1, h2, Option.map_some]

/-- The comparison with a text that is shorter than the copy sees the whole token. -/
theorem authed_iff {g : Text} (hlen : g.length < authLen - 1) (req : Text) :
    authed (some g) req = true ↔ presented req = some g := by
  rw [authed_eq, presented]
  cases behindBasic req with
  | none => simp
  | some b =>
      simp only [ctEq_iff, authToken_eq, Option.map_some, Option.some.injEq]
      constructor
      · intro htake
        have hcut := congrArg List.length htake
        rw [List.length_take] at hcut
        rw [← htake]
        exact (List.take_of_length_le (by omega)).symm
      · intro htok
        rw [htok]
        exact List.take_of_length_le (by omega)

/-- What stands at a place where a word was found, apart from case. -/
theorem strcasestrAt_eq_some {s w a b : Text}
    (h : strcasestrAt s w = some (a, b)) :
    s = a ++ (b.take w.length ++ b.drop w.length) ∧
      strcaseeq (b.take w.length) w = true := by
  obtain ⟨hs, hp⟩ := search_eq_some h
  refine ⟨by rw [List.take_append_drop, hs], ?_⟩
  have hpre := List.prefix_iff_eq_take.mp (List.isPrefixOf_iff_prefix.mp hp)
  rw [strcaseeq, decide_eq_true_eq]
  simpa [lower] using hpre.symm

/-- `Basic ` does not begin within the name of the header. -/
theorem authorization_length_le {h a b : Text}
    (hname : strcaseeq (h.take 14) "Authorization:".toList = true)
    (h2 : strcasestrAt h "Basic ".toList = some (a, b)) :
    14 ≤ a.length := by
  by_contra hlt
  obtain ⟨hsplit, hword⟩ := strcasestrAt_eq_some h2
  rw [List.take_append_drop] at hsplit
  rw [strcaseeq, decide_eq_true_eq] at hname hword
  cases b with
  | nil =>
      have hlen := congrArg List.length hword
      simp [lower] at hlen
  | cons c b =>
      have hc : c.toLower = 'b' := (List.cons.inj hword).1
      have hmem : c ∈ h.take 14 := by
        rw [hsplit, List.take_append, List.mem_append]
        right
        obtain ⟨k, hk⟩ : ∃ k, 14 - a.length = k + 1 := ⟨13 - a.length, by omega⟩
        rw [hk, List.take_succ_cons]
        exact List.mem_cons_self
      have hlow : c.toLower ∈ lower (h.take 14) := List.mem_map_of_mem hmem
      rw [hname, hc] at hlow
      simp [lower] at hlow

/-- Where the presented token stands in the request. -/
theorem presented_eq_some {req tok : Text}
    (h : presented req = some tok) :
    ∃ before name between basic rest,
      req = before ++ name ++ between ++ basic ++ tok ++ rest ∧
      strcaseeq name "Authorization:".toList = true ∧
      strcaseeq basic "Basic ".toList = true ∧
      ∀ c ∈ rest.head?, c = ' ' ∨ c = '\r' ∨ c = '\n' := by
  rw [presented, Option.map_eq_some_iff] at h
  obtain ⟨b, hb, htok⟩ := h
  obtain ⟨before, at1, between, at2, h1, h2, hdrop⟩ := behindBasic_eq_some hb
  obtain ⟨hreq, hname⟩ := strcasestrAt_eq_some h1
  obtain ⟨hat1, hbasic⟩ := strcasestrAt_eq_some h2
  have hle := authorization_length_le hname h2
  refine ⟨before, at1.take 14, between.drop 14, at2.take 6,
    b.dropWhile fun c => !endsToken c, ?_, hname, hbasic, ?_⟩
  · have htake : at1.take 14 = between.take 14 := by
      rw [hat1, List.take_append_of_le_length hle]
    calc req = before ++ at1 := by rw [hreq, List.take_append_drop]
      _ = before ++ (between ++ (at2.take 6 ++ b)) := by
          rw [hdrop]
          exact congrArg (before ++ ·) hat1
      _ = _ := by
          rw [← htok, htake]
          simp only [List.append_assoc, List.takeWhile_append_dropWhile]
          rw [← List.append_assoc (between.take 14), List.take_append_drop]
  · intro c hc
    have hstop := List.head?_dropWhile_not (fun c => !endsToken c) b
    rw [Option.mem_def.mp hc] at hstop
    have hends : endsToken c = true := by simpa using hstop
    simp only [endsToken, Bool.or_eq_true, beq_iff_eq] at hends
    tauto

/-! ### The law -/

/-- What `main` sets up lets in the requests that present its credential. -/
theorem authed_setup {option env : Option (List UInt8)} {g : Text}
    (h : setupAuth option env = some (some g)) (req : Text) :
    authed (some g) req = true ↔
      ∃ cred, gAuth option env = some cred ∧
        presented req = some (Base64.encode b64Standard cred) := by
  obtain ⟨cred, hcred, hraw, rfl⟩ := setupAuth_some h
  rw [authed_iff (length_encode_standard hraw), hcred]
  simp

/-- The whole encoding of the credential is kept, and a request is let in exactly
when the token behind its first `Basic ` is that encoding. -/
theorem only_credential_opens (cred : List UInt8)
    (hraw : cred.length ≤ authRawMax) :
    b64encode cred authLen = Base64.encode b64Standard cred ∧
      Base64.decode b64Standard (b64encode cred authLen) = some cred ∧
      ∀ req,
        (authed (some (b64encode cred authLen)) req = true →
          ∃ before name between basic rest,
            req = before ++ name ++ between ++ basic ++ Base64.encode b64Standard cred ++
              rest ∧
            strcaseeq name "Authorization:".toList = true ∧
            strcaseeq basic "Basic ".toList = true ∧
            ∀ c ∈ rest.head?, c = ' ' ∨ c = '\r' ∨ c = '\n') ∧
        ∀ tok, presented req = some tok →
          (authed (some (b64encode cred authLen)) req = true ↔
            tok = Base64.encode b64Standard cred) := by
  have henc := b64encode_eq hraw
  have hlen := length_encode_standard hraw
  refine ⟨henc, ?_, fun req => ⟨fun h => ?_, fun tok htok => ?_⟩⟩
  · rw [henc, Base64.decode_encode]
  · rw [henc, authed_iff hlen] at h
    exact presented_eq_some h
  · rw [henc, authed_iff hlen, htok, Option.some.injEq]

theorem only_credential_opens_user :
    ([117, 58, 112] : List UInt8).length ≤ authRawMax ∧
      authed (some (b64encode [117, 58, 112] authLen))
        "Authorization: Basic dTpw\r\n".toList = true ∧
      ¬ authed (some (b64encode [117, 58, 112] authLen))
        "Authorization: Basic dTpwdTpw\r\n".toList = true := by
  have hraw : ([117, 58, 112] : List UInt8).length ≤ authRawMax := by simp [authRawMax]
  have hlaw := (only_credential_opens [117, 58, 112] hraw).2.2
  refine ⟨hraw, ((hlaw _).2 "dTpw".toList rfl).mpr rfl, fun h => ?_⟩
  have heq := ((hlaw _).2 "dTpwdTpw".toList rfl).mp h
  exact absurd (congrArg List.length heq) (by simp [Base64.length_encode])

end Web
end N2kMux
