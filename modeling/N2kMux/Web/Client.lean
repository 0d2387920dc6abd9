import N2kMux.Lib.Search

/-!
# A request of a client (web.c)

`handle_client` reads a request from a socket into one buffer, first up to the
blank line that ends the headers, then as much of the body as the headers
announce, checks it and calls the handler of the path.

A socket delivers the bytes that arrive before the client is silent or gone; how
many of them one `recv` gives is not known.
-/

namespace N2kMux
namespace Web

open CText

/-- `REQ_MAX` -/
def reqMax : Nat := 65536

/-- `sizeof g_auth_b64` -/
def authLen : Nat := 352

/-! ### The socket -/

/-- The bytes that still arrive, and how many more than one each call of `recv`
finds ready. -/
structure Socket where
  rest : Text
  ready : Nat → Nat

/-- `recv(fd, buf, room, 0)`: nothing is received when the connection is at its
end or the delay is over. -/
def Socket.recv (s : Socket) (room : Nat) : Text × Socket :=
  let k := min (s.ready 0 + 1) room
  (s.rest.take k, { rest := s.rest.drop k, ready := fun i => s.ready (i + 1) })

/-- The characters of a buffer up to the first NUL. -/
def cstr (buf : Text) : Text := buf.takeWhile (fun c => c != '\x00')

def blankLine : Text := "\r\n\r\n".toList

/-- The first loop: up to the blank line, the end of the buffer or that of what
arrives. -/
def readHeaders (req : Text) (s : Socket) : Text × Socket :=
  if req.length < reqMax - 1 then
    match h : (s.recv (reqMax - 1 - req.length)).1 with
    | [] => (req, s)
    | c :: got =>
        if (strstr (cstr (req ++ c :: got)) blankLine).isSome then
          (req ++ c :: got, (s.recv (reqMax - 1 - req.length)).2)
        else readHeaders (req ++ c :: got) (s.recv (reqMax - 1 - req.length)).2
  else (req, s)
termination_by reqMax - req.length
decreasing_by
  simp only [List.length_append, List.length_cons]
  omega

/-- The second loop: until `want` bytes follow the first `skip` ones. -/
def readBody (skip want : Nat) (req : Text) (s : Socket) : Text :=
  if req.length - skip < want then
    match h : (s.recv (reqMax - 1 - req.length)).1 with
    | [] => req
    | c :: got =>
        readBody skip want (req ++ c :: got) (s.recv (reqMax - 1 - req.length)).2
  else req
termination_by skip + want - req.length
decreasing_by
  simp only [List.length_append, List.length_cons]
  omega

/-! ### What the headers say -/

/-- One `%ns` of `sscanf`: the word and what follows it. -/
def scanWord (n : Nat) (s : Text) : Option (Text × Text) :=
  let s := s.dropWhile isSpace
  let w := (s.takeWhile (fun c => !isSpace c)).take n
  if w = [] then none else some (w, s.drop w.length)

/-- `sscanf(req, "%7s %255s", method, path)` -/
def methodPath (req : Text) : Text × Text :=
  match scanWord 7 req with
  | none => ([], [])
  | some (method, rest) =>
      match scanWord 255 rest with
      | none => (method, [])
      | some (path, _) => (method, path)

/-- `ct_eq` -/
def ctEq (a b : Text) : Bool :=
  (List.zipWith (fun x y => x.toNat ^^^ y.toNat) a b).foldl (fun d x => d ||| x)
    (a.length ^^^ b.length) = 0

/-- The loop that copies the token of `authed`. -/
def authToken (b : Text) : Text :=
  (b.takeWhile (fun c => c != '\r' && c != '\n' && c != ' ')).take (authLen - 1)

/-- `authed`; there is no `auth` when the authentication is off. -/
def authed (auth : Option Text) (req : Text) : Bool :=
  match auth with
  | none => true
  | some expected =>
      match strcasestrAt req "Authorization:".toList with
      | none => false
      | some (_, h) =>
          match strcasestrAt h "Basic ".toList with
          | none => false
          | some (_, b) => ctEq (authToken (b.drop 6)) expected

/-- `strtoul(s, NULL, 10)`, with 64 bits. -/
def strtoul (s : Text) : Nat :=
  match s.dropWhile isSpace with
  | '-' :: r =>
      if digitsValue r < 2 ^ 64 then (2 ^ 64 - digitsValue r) % 2 ^ 64 else 2 ^ 64 - 1
  | '+' :: r => min (digitsValue r) (2 ^ 64 - 1)
  | r => min (digitsValue r) (2 ^ 64 - 1)

/-- The header `name`, if it begins before the place `end`. -/
def headerBefore (req name : Text) (hdrEnd : Nat) : Option Text :=
  match strcasestrAt req name with
  | none => none
  | some (before, h) => if before.length > hdrEnd then none else some h

def xN2kMux : Text := "\r\nX-N2K-Mux:".toList

def contentLength : Text := "\r\nContent-Length:".toList

/-! ### The reply -/

/-- The pages and documents that a GET asks for. -/
inductive Document
  | page
  | sources
  | stats
  | busmap
  | rules
  | sim
  | polars
  | config
deriving DecidableEq

/-- What the server does with a request. -/
inductive Reply
  /-- The connection is closed without a reply. -/
  | closed
  /-- `send_401` -/
  | unauthorized
  /-- `send_text`, as plain text -/
  | text (code : Nat) (status body : String)
  /-- A reply that serves a document. -/
  | document (d : Document)
  /-- `handle_config_post` -/
  | configPost (body : Text) (writeIt : Bool)
  /-- `handle_sim_post` -/
  | simPost (body : Text)
deriving DecidableEq

/-- The body that the handler of a POST is called with. -/
def Reply.handled? : Reply → Option Text
  | .configPost body _ => some body
  | .simPost body => some body
  | _ => none

/-- The paths of a GET. -/
def getReply (path : Text) : Reply :=
  if path = "/".toList then .document .page
  else if path = "/api/sources".toList then .document .sources
  else if path = "/api/stats".toList then .document .stats
  else if path = "/api/busmap".toList then .document .busmap
  else if path = "/api/rules".toList then .document .rules
  else if path = "/api/sim".toList then .document .sim
  else if path = "/api/polars".toList then .document .polars
  else if path = "/api/config".toList then .document .config
  else .text 404 "Not Found" "404\n"

/-- The paths of a POST. -/
def postReply (path body : Text) : Reply :=
  if path = "/api/validate".toList then .configPost body false
  else if path = "/api/config".toList then .configPost body true
  else if path = "/api/sim".toList then .simPost body
  else .text 404 "Not Found" "404\n"

/-- The part of `handle_client` for a POST; `hdrEnd` and `buf` are the place of
the blank line and all that is received, NUL characters included. -/
def handlePost (path buf : Text) (hdrEnd : Option Nat) (s : Socket) : Reply :=
  match hdrEnd with
  | none => .text 400 "Bad Request" "400\n"
  | some hdrEnd =>
      match headerBefore (cstr buf) xN2kMux hdrEnd with
      | none => .text 403 "Forbidden" "403 : en-tête X-N2K-Mux requis\n"
      | some _ =>
          match headerBefore (cstr buf) contentLength hdrEnd with
          | none => .text 411 "Length Required" "411\n"
          | some cl =>
              let want := strtoul (cl.drop 17)
              let skip := hdrEnd + 4
              if want > reqMax - 1 - skip then
                .text 413 "Payload Too Large" "413\n"
              else
                let buf := readBody skip want buf s
                if buf.length - skip < want then
                  .text 400 "Bad Request" "400 : corps incomplet\n"
                else postReply path (cstr ((buf.drop skip).take want))

/-- `handle_client` -/
def handleClient (auth : Option Text) (s : Socket) : Reply :=
  let (buf, s) := readHeaders [] s
  if buf = [] then .closed
  else
    let (method, path) := methodPath (cstr buf)
    if authed auth (cstr buf) = false then .unauthorized
    else if method = "POST".toList then
      handlePost path buf ((strstr (cstr buf) blankLine).map (fun r => r.1.length)) s
    else if method = "GET".toList then getReply path
    else .text 400 "Bad Request" "400\n"

end Web
end N2kMux
