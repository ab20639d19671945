import Srl.BytesFind
import Srl.DictionaryStrings

namespace Srl

namespace Bytes

/-- `operator+=(char)`, which drops a `NUL`. -/
def add (s : Bytes) (c : UInt8) : Bytes := if c = 0 then s else s ++ [c]

/-- `count(char)`. -/
def countChar (s : Bytes) (c : UInt8) : Nat := (cstr s).count c

/-- `left`. -/
def left (s : Bytes) (len : Nat) : Bytes := if s.length < len then [] else ofText s len

/-- `section(delim, field_num)` from the field that begins at `start_pos`. -/
def sectionFrom (s : Bytes) (delim : UInt8) : Nat → Nat → Bytes
  | 0, start_pos => mid s start_pos (((s.find delim start_pos).getD s.length) - start_pos)
  | n + 1, start_pos =>
    match s.find delim start_pos with
    | some stop_pos => sectionFrom s delim n (stop_pos + 1)
    | none => []

def «section» (s : Bytes) (delim : UInt8) (field_num : Nat) : Bytes := sectionFrom s delim field_num 0

/-- `String::Val(uint32)` in base 10. -/
def valUnsigned (num : UInt32) : Bytes := valLoop 10 33 num []

/-- `String::Hex`. -/
def hex (c : UInt8) (out : Bytes) : Bytes :=
  (out.add (charAt HEX (c >>> 4).toNat)).add (charAt HEX (c &&& 15).toNat)

/-- One digit of `String::UnHex`. -/
def unHexDigit (hex : UInt8) : Option UInt8 :=
  if 97 ≤ hex ∧ hex ≤ 102 then some (hex - 97 + 10)
  else if 65 ≤ hex ∧ hex ≤ 70 then some (hex - 65 + 10)
  else if 48 ≤ hex ∧ hex ≤ 57 then some (hex - 48)
  else none

/-- `String::UnHex`. -/
def unHex (hex1 hex2 : UInt8) : UInt8 :=
  match unHexDigit hex1, unHexDigit hex2 with
  | some unhex1, some unhex2 => unhex1 * 16 + unhex2
  | _, _ => 0

end Bytes

open Bytes

/-- `substr` between positions that may be -1. A negative length is one of nearly 2³², with which
the copy runs past the string: `none`. -/
def between (s : Bytes) (pos epos : Int) : Option Bytes :=
  if 0 ≤ pos ∧ pos ≤ epos then some (substr s pos.toNat (epos.toNat - pos.toNat)) else none

/-- What `find` returns. -/
def position : Option Nat → Int
  | some n => n
  | none => -1

@[simp] theorem position_some (n : Nat) : position (some n) = n := rfl
@[simp] theorem position_none : position none = -1 := rfl

theorem between_eq {s text rest : Bytes} {p : Nat} {pos epos : Int} (hs : s.drop p = text ++ rest)
    (ht : text ≠ []) (hpos : pos = p) (hepos : epos = p + text.length) : between s pos epos = some text := by
  have hlen : epos.toNat - pos.toNat = text.length := by omega
  have hstart : pos.toNat = p := by omega
  rw [between, if_pos (by omega), hlen, hstart, substr_eq hs ht]

theorem between_end {s text : Bytes} {p : Nat} {pos : Int} (hs : s.drop p = text) (ht : text ≠ []) (hpos : pos = p) :
    between s pos s.length = some text := by
  have hlen := congrArg List.length hs
  have htext := List.length_pos_of_ne_nil ht
  rw [List.length_drop] at hlen
  exact between_eq (hs.trans (List.append_nil text).symm) ht hpos (by omega)

structure URI where
  query_map : Dictionary Bytes Bytes
  str : Bytes
  scheme : Bytes
  user : Bytes
  host : Bytes
  path : Bytes
  query : Bytes
  fragment : Bytes
  port : UInt32

namespace URI

def ENCODE_EXCLUDE_USER : Bytes := bytes "!$&'()*+,;=:"
def ENCODE_EXCLUDE_HOST : Bytes := bytes "[]:"
def ENCODE_EXCLUDE_PATH : Bytes := bytes "!$&'()*+,;=:@/"
def ENCODE_EXCLUDE_FRAG : Bytes := bytes "!$&'()*+,;=:@/?"

def ShouldEncode (ch : UInt8) (exclude_list : Bytes) : Bool :=
  !((97 ≤ ch && ch ≤ 122) || (65 ≤ ch && ch ≤ 90) || (48 ≤ ch && ch ≤ 57) || ch = 45 || ch = 46 ||
    ch = 95 || ch = 126 || (exclude_list.find ch 0).isSome)

/-- One round of `Encode`. -/
def encodeChar (exclude : Bytes) (output : Bytes) (c : UInt8) : Bytes :=
  if ShouldEncode c exclude then hex c (output.add 37) else output.add c

def Encode (input output exclude : Bytes) : Bytes := input.foldl (encodeChar exclude) output

/-- The loop of `Decode`, on what is left of its input. -/
def decodeLoop : Bytes → Bytes → Bytes
  | 37 :: hex1 :: hex2 :: input, output => decodeLoop input (output.add (unHex hex1 hex2))
  | c :: input, output => decodeLoop input (output.add c)
  | [], output => output

def Decode (encoded output : Bytes) : Bytes := decodeLoop (encoded.replaceChar 43 32) output

/-- A part of a text that is encoded, or is encoded here. -/
def part (is_encoded : Bool) (exclude text : Bytes) : Bytes :=
  if is_encoded then text else Encode text [] exclude

/-- The path with what follows it, which `asString` leaves out when the path is empty. -/
def tail (u : URI) : Bytes :=
  if u.path = [] then []
  else u.path ++ (if u.query = [] then [] else 63 :: u.query) ++
    (if u.fragment = [] then [] else 35 :: u.fragment)

/-- `_generateString`. -/
def generateString (u : URI) : URI :=
  { u with str :=
      (if u.scheme = [] then [] else u.scheme ++ [58]) ++
      (if u.host = [] then [] else
        bytes "//" ++ (if u.user = [] then [] else u.user ++ [64]) ++ u.host ++
          (if 0 < u.port then 58 :: valUnsigned u.port else [])) ++ u.tail }

/-- `_parseScheme`, with the position that it leaves. -/
def parseScheme (u : URI) (uri : Bytes) (pos : Int) : URI × Int :=
  let scheme_epos := position (uri.find 58 0)
  if scheme_epos = -1 then (u, pos)
  else
    let auth_spos := position (uri.find 47 0)
    if scheme_epos < auth_spos then ({ u with scheme := uri.left scheme_epos.toNat }, scheme_epos + 1)
    else (u, pos)

/-- The user part of `_parseAuthority`, with the position behind it. -/
def parseUser (u : URI) (uri : Bytes) (pos spos epos : Int) (is_encoded : Bool) : Option (URI × Int) :=
  let part_epos := position (uri.find 64 pos.toNat)
  if part_epos ≠ -1 ∧ part_epos < epos then do
    let text ← between uri spos part_epos
    some ({ u with user := part is_encoded ENCODE_EXCLUDE_USER text }, part_epos + 1)
  else some (u, spos)

/-- The port part of `_parseAuthority`, with the end of the host. -/
def parsePort (u : URI) (uri : Bytes) (spos epos : Int) : Option (URI × Int) :=
  let part_epos := position (uri.find 58 spos.toNat)
  if part_epos = -1 ∨ epos < part_epos then some (u, epos)
  else do
    let text ← between uri (part_epos + 1) epos
    some ({ u with port := (int text 10).toUInt32 }, part_epos)

/-- `_parseAuthority`, with the position that it leaves. -/
def parseAuthority (u : URI) (uri : Bytes) (pos : Int) (is_encoded : Bool) : Option (URI × Int) :=
  let spos := position (uri.findText (bytes "//") 0)
  if spos = -1 then some (u, pos)
  else do
    let spos := spos + 2
    let epos := position (uri.find 47 spos.toNat)
    let epos := if epos = -1 then (uri.length : Int) else epos
    let (u, spos) ← u.parseUser uri pos spos epos is_encoded
    let (u, part_epos) ← u.parsePort uri spos epos
    let text ← between uri spos part_epos
    let u := { u with host := part is_encoded ENCODE_EXCLUDE_HOST text }
    some (u, if part_epos < uri.length then epos else -1)

/-- The query of a text that is encoded, or is encoded here. -/
def queryPart (is_encoded : Bool) (text : Bytes) : Bytes :=
  if is_encoded then text else (Encode text [] (bytes " =&")).replaceChar 32 43

/-- The query part of `_parsePath`, with the end of the path. -/
def parseQuery (u : URI) (uri : Bytes) (query_pos frag_pos : Int) (is_encoded : Bool) :
    Option (URI × Int) :=
  if 0 ≤ query_pos then do
    let epos := if frag_pos > query_pos then frag_pos else query_pos
    let text ← between uri (query_pos + 1) uri.length
    some ({ u with query := queryPart is_encoded text }, epos)
  else if 0 < frag_pos then some (u, frag_pos)
  else some (u, uri.length)

/-- The fragment part of `_parsePath`; `query_pos` is one behind the `?` if there is one. -/
def parseFragment (u : URI) (uri : Bytes) (query_pos frag_pos : Int) (is_encoded : Bool) : Option URI :=
  if 0 ≤ frag_pos then do
    let epos := if query_pos > frag_pos then query_pos else (uri.length : Int)
    let text ← between uri (frag_pos + 1) epos
    some { u with fragment := part is_encoded ENCODE_EXCLUDE_FRAG text }
  else some u

/-- `_parsePath`. -/
def parsePath (u : URI) (uri : Bytes) (pos : Int) (is_encoded : Bool) : Option URI := do
  let query_pos := position (uri.find 63 pos.toNat)
  let frag_pos := position (uri.find 35 pos.toNat)
  let (u, epos) ← u.parseQuery uri query_pos frag_pos is_encoded
  let text ← between uri pos epos
  let u := { u with path := part is_encoded ENCODE_EXCLUDE_PATH text }
  u.parseFragment uri (if 0 ≤ query_pos then query_pos + 1 else query_pos) frag_pos is_encoded

def set (u : URI) (uri : Bytes) (is_encoded : Bool) : Option URI := do
  let query_map ← u.query_map.clear
  let (u, pos) := parseScheme ⟨query_map, [], [], [], [], [], [], [], 0⟩ uri 0
  let (u, pos) ← u.parseAuthority uri pos is_encoded
  let u ← if pos ≠ -1 then u.parsePath uri pos is_encoded else some u
  some u.generateString

/-- `URI(uri, is_encoded)`. -/
def new (uri : Bytes) (is_encoded : Bool) : Option URI :=
  set ⟨.empty, [], [], [], [], [], [], [], 0⟩ uri is_encoded

/-- The further values of a field that `asString` writes. -/
def valuesLoop (key value : Bytes) : Nat → Nat → Bytes → Bytes
  | 0, _, query => query
  | n + 1, v, query =>
    valuesLoop key value n (v + 1) (query ++ [38] ++ key ++ [61] ++ value.section 38 v)

/-- One round of the loop of `asString`. -/
def addField (key value query : Bytes) : Bytes :=
  let query := query ++ key ++ [61]
  let value_count := value.countChar 38
  if 0 < value_count then valuesLoop key value value_count 1 (query ++ value.section 38 0)
  else query ++ value

/-- The loop of `asString` over the entries from `iter` on. -/
def fieldsLoop (d : Dictionary Bytes Bytes) : Nat → Ptr → Bytes → Option Bytes
  | 0, _, _ => none
  | fuel + 1, iter, query =>
    if iter = NULL then some query
    else do
      let e ← d.heap iter
      let query := if iter ≠ d.begin then query ++ [38] else query
      fieldsLoop d fuel e.next (addField e.key e.value query)

/-- `asString`, with the text that it returns. -/
def asString (u : URI) : Option (Bytes × URI) :=
  if u.query_map.size = 0 then some (u.str, u)
  else if UInt32.ofNat (u.query.countChar 38) + 1 ≠ u.query_map.size then do
    let query ← fieldsLoop u.query_map u.query_map.brk u.query_map.begin []
    let u := { u with query := query }.generateString
    some (u.str, u)
  else some (u.str, u)

/-- `_query_map[key] += '&'` and `+= value`. -/
def append (d : Dictionary Bytes Bytes) (key value : Bytes) : Option (Dictionary Bytes Bytes) := do
  let (entry, d) ← d.index key
  let d ← d.store entry fun e => { e with value := e.value ++ [38] }
  let (entry, d) ← d.index key
  d.store entry fun e => { e with value := e.value ++ value }

/-- A value of a field is put into the map, behind those that are there. -/
def putField (d : Dictionary Bytes Bytes) (key value : Bytes) : Option (Dictionary Bytes Bytes) := do
  if ← d.hasKey key then append d key value else d.assign key value

/-- The loop of `getQueryMap` over the rest of its fields. -/
def parseFields (query : Bytes) : Nat → Nat → Dictionary Bytes Bytes → Option (Dictionary Bytes Bytes)
  | 0, _, d => some d
  | n + 1, spos, d =>
    match query.find 61 spos with
    | none => some d
    | some epos => do
      let field ← between query spos epos
      let spos := epos + 1
      let epos := (query.find 38 spos).getD query.length
      let value ← between query spos epos
      let d ← putField d field value
      parseFields query n (epos + 1) d

/-- `getQueryMap`. -/
def getQueryMap (u : URI) : Option URI :=
  if u.query_map.size = 0 ∧ 0 < u.query.length then do
    let d ← parseFields u.query (u.query.countChar 38 + 1) 0 u.query_map
    some { u with query_map := d }
  else some u

/-- What `addQueryField` puts into the map for a value. -/
def encodedValue (value : Bytes) : Bytes := (Encode value [] (bytes " .~_-")).replaceChar 32 43

def addQueryField (u : URI) (key value : Bytes) : Option URI := do
  let u ← u.getQueryMap
  let d ← putField u.query_map key (encodedValue value)
  some { u with query_map := d }

end URI

end Srl
