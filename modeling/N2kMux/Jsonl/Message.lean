import N2kMux.Lib.Double
import N2kMux.Lib.Table

/-!
# Decoded messages (jsonl.h)

One line of the analyzer becomes a `Msg`: the header values of the first level,
the flattened `fields` object and the items of a repetitive `list` array, all in
storage of fixed size.  `Msg.getNum`, `Msg.getStr` and the `list` accessors are
the readers the rest of the program uses.
-/

namespace N2kMux
namespace Jsonl

/-- `JSONL_MAX_FIELDS` -/
def maxFields : Nat := 48
/-- `JSONL_KEY_LEN` -/
def keyLen : Nat := 48
/-- `JSONL_VAL_LEN` -/
def valLen : Nat := 96
/-- `JSONL_DESC_LEN` -/
def descLen : Nat := 96
/-- `JSONL_TS_LEN` -/
def tsLen : Nat := 32
/-- `JSONL_MAX_LIST` -/
def maxList : Nat := 32
/-- `JSONL_LIST_FIELDS` -/
def listFields : Nat := 8

/-- `jsonl_valtype_t` -/
inductive ValType where
  | null
  | num
  | str
  | nv
deriving DecidableEq

variable {α : Type}

/-- `jsonl_field_t` -/
@[ext] structure MsgField (α : Type) where
  key : CBuf keyLen
  type : ValType
  num : Double α
  str : CBuf valLen
deriving DecidableEq

/-- A zeroed field. -/
def MsgField.zero [Zero α] : MsgField α :=
  { key := .empty, type := .null, num := 0, str := .empty }

/-- `jsonl_listitem_t` -/
abbrev ListItem (α : Type) := Table listFields (MsgField α)

/-- `jsonl_msg_t`; an absent header value is `-1`. -/
@[ext] structure Msg (α : Type) where
  hasSrc : Bool
  hasPgn : Bool
  hasPrio : Bool
  hasDst : Bool
  src : Int
  pgn : Int
  prio : Int
  dst : Int
  timestamp : CBuf tsLen
  description : CBuf descLen
  fields : Table maxFields (MsgField α)
  list : Table maxList (ListItem α)
  isHeader : Bool

/-- The message before anything is read. -/
def Msg.init : Msg α :=
  { hasSrc := false, hasPgn := false, hasPrio := false, hasDst := false
    src := -1, pgn := -1, prio := -1, dst := -1
    timestamp := .empty, description := .empty
    fields := .empty, list := .empty, isHeader := false }

/-- First field of that name (`jsonl_get`, and the search of
`jsonl_list_get`). -/
def findField (fs : List (MsgField α)) (key : Text) : Option (MsgField α) :=
  fs.find? (fun f => f.key.text = key)

/-- Number of a field that has one. -/
def MsgField.asNum (f : MsgField α) : Option (Double α) :=
  if f.type = .num ∨ f.type = .nv then some f.num else none

/-- String of a field that has one. -/
def MsgField.asStr (f : MsgField α) : Option Text :=
  if f.type = .str ∨ f.type = .nv then some f.str.text else none

namespace Msg

/-- `jsonl_get` -/
def get (m : Msg α) (key : Text) : Option (MsgField α) :=
  findField m.fields.items key

/-- `jsonl_get_num` -/
def getNum (m : Msg α) (key : Text) : Option (Double α) :=
  (m.get key).bind MsgField.asNum

/-- `jsonl_get_str` -/
def getStr (m : Msg α) (key : Text) : Option Text :=
  (m.get key).bind MsgField.asStr

/-- `jsonl_list_count` -/
def listCount (m : Msg α) : Nat := m.list.items.length

/-- `jsonl_list_get` -/
def listGet (m : Msg α) (idx : Nat) (key : Text) : Option (MsgField α) :=
  (m.list.items[idx]?).bind (fun it => findField it.items key)

/-- `jsonl_list_get_num` -/
def listGetNum (m : Msg α) (idx : Nat) (key : Text) : Option (Double α) :=
  (m.listGet idx key).bind MsgField.asNum

/-- `jsonl_list_get_str` -/
def listGetStr (m : Msg α) (idx : Nat) (key : Text) : Option Text :=
  (m.listGet idx key).bind MsgField.asStr

end Msg

end Jsonl
end N2kMux
