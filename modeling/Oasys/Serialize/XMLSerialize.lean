import Oasys.Serialize.StringPairSerialize

/-!
# XMLSerialize

`XMLMarshal` of `serialize/XMLSerialize.cc`, with the objects of `xml/XMLObject.cc` that it
makes a document of, and `XercesXMLUnmarshal` of `serialize/XercesXMLSerialize.cc`. A field is
an attribute of the element that is the current one when it is processed.

What is called of Xerces is an argument: its parser, which returns the elements of a document
with their attributes, and `Base64::encode`, which returns null where it has nothing to
encode. Messages are left out, and so is the document around the root, which has no header.
-/

namespace Oasys

/-- `XMLObject`, with its attributes and its processing instructions in pairs. An object owns
    its children and is one value with them. -/
structure XMLObject where
  tag_ : List UInt8
  attrs_ : List (List UInt8 × List UInt8)
  proc_insts_ : List (List UInt8 × List UInt8)
  elements_ : List XMLObject
  text_ : List UInt8
  deriving Repr

namespace XMLObject

def new (tag : List UInt8) : XMLObject := ⟨tag, [], [], [], []⟩

def addAttr (o : XMLObject) (attr val : List UInt8) : XMLObject :=
  { o with attrs_ := o.attrs_ ++ [(attr, val)] }

def addElement (o child : XMLObject) : XMLObject :=
  { o with elements_ := o.elements_ ++ [child] }

def makeXmlSafe (str : List UInt8) : List UInt8 :=
  str.flatMap fun c =>
    if c = 34 then ascii "&quot;"
    else if c = 38 then ascii "&amp;"
    else if c = 60 then ascii "&lt;"
    else if c = 62 then ascii "&gt;"
    else if c = 39 then ascii "&apos;"
    else [c]

/-- What `%.*s` prints of the 80 blanks, of which a negative precision leaves all. -/
def space (cur_indent : Int) : List UInt8 :=
  List.replicate (if cur_indent < 0 then 80 else min cur_indent.toNat 80) 32

mutual

/-- `to_string`: the text that is appended to the buffer. -/
def toString (indent cur_indent : Int) : XMLObject → List UInt8
  | ⟨tag_, attrs_, proc_insts_, elements_, text_⟩ =>
    let newline := if indent = -1 then [] else [10]
    let head := space cur_indent ++ ascii "<" ++ cStr tag_ ++
      attrs_.flatMap fun (attr, val) =>
        ascii " " ++ cStr attr ++ ascii "=\"" ++ cStr (makeXmlSafe val) ++ ascii "\""
    -- shorthand for attribute-only tags
    if proc_insts_.isEmpty && elements_.isEmpty && text_.length == 0 then head ++ ascii "/>"
    else
      head ++ ascii ">" ++ newline ++
        (proc_insts_.flatMap fun (target, data) =>
          ascii "<?" ++ cStr target ++ ascii " " ++ cStr data ++ ascii "?>" ++ newline) ++
        elementsToString indent (if 0 < indent then cur_indent + indent else 0) elements_ ++
        text_ ++ space cur_indent ++ ascii "</" ++ cStr tag_ ++ ascii ">"

/-- The loop of `to_string` over the children. -/
def elementsToString (indent cur_indent : Int) : List XMLObject → List UInt8
  | [] => []
  | o :: os => toString indent cur_indent o ++ elementsToString indent cur_indent os

end

end XMLObject

/-! ### XMLMarshal -/

namespace XMLMarshal

/-- What is encoded of a buffer. A string is made of it, which must not be null. -/
def encode (base64 : List UInt8 → Option (List UInt8)) (bytes : List UInt8) :
    Except Fault (List UInt8) :=
  match base64 bytes with
  | some estr => return estr
  | none => throw .nullDeref

/-- The loop that looks for the terminator. -/
def scan (terminator : UInt8) : List UInt8 → Except Fault Nat
  | [] => throw .outOfBounds
  | b :: mem => if b = terminator then return 0 else return (← scan terminator mem) + 1

/-- The value of the attribute that a field becomes. The overloads for signed integers pass
    the pointer on to those for unsigned ones. -/
def format (base64 : List UInt8 → Option (List UInt8)) : Basic → Except Fault (List UInt8)
  | .int i => return Decimal.digits i.cast
  | .bool b => return ascii (if b then "true" else "false")
  | .buf bp => encode base64 bp.bytes
  | .carrier c => do encode base64 (← readBytes c.buf_ c.len_)
  | .terminated c terminator => do
    match c.buf_ with
    | none => throw .nullDeref
    | some mem => encode base64 (← readBytes c.buf_ (← scan terminator mem))
  | .string s => return s

/-- The calls of `process` for anything but an object. -/
def processBasic (base64 : List UInt8 → Option (List UInt8)) (current_node_ : XMLObject)
    (name : List UInt8) (x : Basic) : Except Fault XMLObject := do
  return current_node_.addAttr name (← format base64 x)

mutual

def process (base64 : List UInt8 → Option (List UInt8)) (current_node_ : XMLObject)
    (name : List UInt8) : Value → Except Fault XMLObject
  | .basic x => processBasic base64 current_node_ name x
  | .object fields => do
    return current_node_.addElement (← serialize base64 (.new name) fields)
  | .vector _ elems => do
    let new_node ← processBasic base64 (.new name) (ascii "size") (.int (.size elems.length))
    return current_node_.addElement (← processElems base64 new_node elems)

/-- `serialize` of an object. -/
def serialize (base64 : List UInt8 → Option (List UInt8)) (current_node_ : XMLObject) :
    NamedObject → Except Fault XMLObject
  | [] => return current_node_
  | (name, v) :: o => do serialize base64 (← process base64 current_node_ name v) o

/-- The loop of `SerializableVector::serialize` over the elements. -/
def processElems (base64 : List UInt8 → Option (List UInt8)) (current_node_ : XMLObject) :
    List Value → Except Fault XMLObject
  | [] => return current_node_
  | e :: elems => do
    processElems base64 (← process base64 current_node_ (ascii "element") e) elems

end

/-- `action`: the document that is in the buffer then. -/
def action (base64 : List UInt8 → Option (List UInt8)) (root_tag : List UInt8)
    (o : NamedObject) : Except Fault (List UInt8) := do
  return (← serialize base64 (.new root_tag) o).toString (-1) 0

end XMLMarshal

/-! ### XercesXMLUnmarshal -/

namespace XercesXMLUnmarshal

mutual

/-- The elements below an element, in the order `walker_` visits them in. -/
def descendants : XMLObject → List XMLObject
  | ⟨_, _, _, elements_, _⟩ => visits elements_

/-- Elements, each followed by those below it. -/
def visits : List XMLObject → List XMLObject
  | [] => []
  | e :: es => e :: descendants e ++ visits es

end

/-- The element that is looked at, and those `walker_` has still to visit, until it is
    released. -/
structure State where
  root_elem_ : Option XMLObject
  walker_ : Option (List XMLObject)

/-- `parse`, unless it signals an error. -/
def parse (xerces : List UInt8 → Option XMLObject) (xml_doc : List UInt8) : Option State :=
  (xerces xml_doc).map fun root => ⟨some root, some (descendants root)⟩

def nextElem (s : State) : Except Fault (Option (List UInt8) × State) :=
  match s.walker_ with
  | none => throw .useAfterFree
  | some [] => return (none, ⟨none, none⟩)
  | some (e :: rest) => return (some e.tag_, ⟨some e, some rest⟩)

/-- White space in the value of an attribute is reported as a blank. -/
def normalized (val : List UInt8) : List UInt8 :=
  val.map fun c => if c = 9 ∨ c = 10 ∨ c = 13 then 32 else c

/-- `getAttribute`, which is empty where there is no such attribute. -/
def getAttribute (s : State) (name : List UInt8) : Except Fault (List UInt8) :=
  match s.root_elem_ with
  | none => throw .nullDeref
  | some e => return normalized ((e.attrs_.lookup name).getD [])

/-- What is stored in a buffer, of which the last byte is zero. -/
def loadBuf (bp : FixedBuffer) (value : List UInt8) : FixedBuffer :=
  let len := bp.bytes.length
  ⟨((cStr value).take (len - 1) ++ List.replicate len 0).take len,
    Nat.lt_of_le_of_lt (List.length_take_le ..) bp.fits⟩

/-- What a call of `process` stores, given the value of the attribute. -/
def load (value : List UInt8) : Basic → Basic
  | .int i => .int (StringPairUnmarshal.loadInt i.kind value)
  | .bool _ => .bool (cStr value = ascii "true")
  | .buf bp => .buf (loadBuf bp value)
  | .carrier c => .carrier (c.setBuf (some (cStr value)) (cStr value).length)
  | .terminated c terminator =>
    .terminated (c.setBuf (some (cStr value ++ [terminator])) (cStr value).length) terminator
  | .string _ => .string (cStr value)

/-- A buffer that `process(name, u_char*, len)` leaves as it is. -/
def isShort : Basic → Bool
  | .buf bp => bp.bytes.length < 2
  | _ => false

/-- The calls of `process` for anything but an object. -/
def processBasic (s : State) (name : List UInt8) (x : Basic) : Except Fault Basic :=
  if isShort x then return x else return load (← getAttribute s name) x

/-- The loop of `SerializableVector::serialize` that adds `n` elements, given what processes
    one. -/
def processElems (process : State → Except Fault (Bool × Value × State)) :
    Nat → State → Except Fault (Bool × List Value × State)
  | 0, s => return (false, [], s)
  | n + 1, s => do
    let (signalled, e, s) ← process s
    let (signalled', es, s) ← processElems process n s
    return (signalled || signalled', e :: es, s)

mutual

/-- One call of `process`, and whether it has called `signal_error`. -/
def process (s : State) (name : List UInt8) : Value → Except Fault (Bool × Value × State)
  | .basic x => do return (false, .basic (← processBasic s name x), s)
  | .object fields => do
    let (next, s) ← nextElem s
    match next with
    | none => return (false, .object fields, s)
    | some tag =>
      if tag ≠ name then return (true, .object fields, s)
      else
        let (signalled, fields, s) ← serialize s fields
        return (signalled, .object fields, s)
  | .vector builder elems => do
    let (next, s) ← nextElem s
    match next with
    | none => return (false, .vector builder elems, s)
    | some tag =>
      if tag ≠ name then return (true, .vector builder elems, s)
      else
        let value ← getAttribute s (ascii "size")
        let sz := (StringPairUnmarshal.loadInt .u32 value).val.toNat
        let (signalled, new, s) ← processElems (process · (ascii "element") builder) sz s
        assert ((elems ++ new).length = sz)
        return (signalled, .vector builder (elems ++ new), s)

/-- `serialize` of an object. -/
def serialize (s : State) : NamedObject → Except Fault (Bool × NamedObject × State)
  | [] => return (false, [], s)
  | (name, v) :: o => do
    let (signalled, v, s) ← process s name v
    let (signalled', o, s) ← serialize s o
    return (signalled || signalled', (name, v) :: o, s)

end

/-- `action`, after `parse`. -/
def action (s : State) (o : NamedObject) : Except Fault (Int × NamedObject) := do
  let (error_, o, _) ← serialize s o
  return (if error_ then -1 else 0, o)

end XercesXMLUnmarshal

end Oasys
