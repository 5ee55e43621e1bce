import Mathlib.Data.Rat.Defs
import Mathlib.Data.List.Nodup
import Mathlib.Data.List.Infix
import Nordstjernen.Glib.Strings

open Nordstjernen.Glib

namespace Nordstjernen.Ipc

-- The four digits of `"%04x"`.
def hex4 (n : Nat) : CString :=
  [(n / 4096) % 16, (n / 256) % 16, (n / 16) % 16, n % 16].map Nat.digitChar

def jsonEscapeChar (ch : Char) : CString :=
  if ch = '"' ∨ ch = '\\' then ['\\', ch]
  else if ch = '\n' then ['\\', 'n']
  else if ch = '\r' then ['\\', 'r']
  else if ch = '\t' then ['\\', 't']
  else if ch.toNat < 0x20 then '\\' :: 'u' :: hex4 ch.toNat
  else [ch]

-- `(SIZE_MAX - 1) / 6`
def maxEscaped : Nat := 3074457345618258602

def jsonEscape (s : CString) : Option CString :=
  if s.length > maxEscaped then none else some (s.flatMap jsonEscapeChar)

-- What follows the first `"key"` of the text, whatever that is a part of.
def jsonFindValue (key : CString) : CString → Option CString
  | []     => none
  | c :: p =>
    if c = '"' ∧ gStrHasPrefix p (key ++ ['"']) then
      some ((p.drop (key.length + 1)).dropWhile fun q => q == ' ' || q == ':')
    else jsonFindValue key p

def jsonGetLong (body key : CString) : Option Int :=
  (jsonFindValue key body).map gAsciiStrtoll

-- The digits of a fraction, the first of which counts `frac`.
def fraction (frac : ℚ) : CString → ℚ
  | []     => 0
  | v :: t => if v.isDigit then (v.toNat - '0'.toNat : Nat) * frac + fraction (frac / 10) t else 0

def exponent (v : CString) : Nat :=
  min 308 ((v.takeWhile Char.isDigit).foldl
    (fun e c => if e < 1000 then e * 10 + (c.toNat - '0'.toNat) else e) 0)

def signed (v : CString) : ℚ × CString :=
  match v with
  | '-' :: t => (-1, t)
  | '+' :: t => (1, t)
  | t        => (1, t)

-- The number that a text begins with, in exact arithmetic.
def decimalValue (v : CString) : ℚ :=
  let (sign, v) := signed v
  let whole : ℚ := Nat.ofDigitChars 10 (v.takeWhile Char.isDigit) 0
  let v := v.dropWhile Char.isDigit
  let (val, v) : ℚ × CString :=
    match v with
    | '.' :: t => (whole + fraction (1 / 10) t, t.dropWhile Char.isDigit)
    | t        => (whole, t)
  match v with
  | e :: t =>
    if e = 'e' ∨ e = 'E' then
      let (esign, t) := signed t
      if esign > 0 then sign * (val * 10 ^ exponent t) else sign * (val / 10 ^ exponent t)
    else sign * val
  | []     => sign * val

def jsonGetDouble (body key : CString) : Option ℚ :=
  (jsonFindValue key body).map decimalValue

def hexDigitValue (c : Char) : Option Nat :=
  if c.isDigit then some (c.toNat - '0'.toNat)
  else if 'a' ≤ c ∧ c ≤ 'f' then some (c.toNat - ('a'.toNat - 10))
  else if 'A' ≤ c ∧ c ≤ 'F' then some (c.toNat - ('A'.toNat - 10))
  else none

def jsonHex4 : CString → Option Nat
  | a :: b :: c :: d :: _ => do
    let a ← hexDigitValue a
    let b ← hexDigitValue b
    let c ← hexDigitValue c
    let d ← hexDigitValue d
    return ((a * 16 + b) * 16 + c) * 16 + d
  | _                     => none

def jsonUtf8Encode (cp : Nat) : CString :=
  if cp < 0x80 then [Char.ofNat cp]
  else if cp < 0x800 then [0xc0 + cp / 0x40, 0x80 + cp % 0x40].map Char.ofNat
  else if cp < 0x10000 then
    [0xe0 + cp / 0x1000, 0x80 + cp / 0x40 % 0x40, 0x80 + cp % 0x40].map Char.ofNat
  else
    [0xf0 + cp / 0x40000, 0x80 + cp / 0x1000 % 0x40, 0x80 + cp / 0x40 % 0x40,
      0x80 + cp % 0x40].map Char.ofNat

-- The low surrogate that may follow a high one.
def lowSurrogate (hi : Nat) (v : CString) : Option Nat :=
  match v with
  | '\\' :: 'u' :: t =>
    if 0xd800 ≤ hi ∧ hi ≤ 0xdbff then
      (jsonHex4 t).filter fun lo => decide (0xdc00 ≤ lo ∧ lo ≤ 0xdfff)
    else none
  | _                => none

-- The loop of `json_get_str`, up to the quotation mark that ends the string.
def jsonUnescape : CString → CString
  | []             => []
  | '"' :: _       => []
  | '\\' :: 'n' :: v => '\n' :: jsonUnescape v
  | '\\' :: 'r' :: v => '\r' :: jsonUnescape v
  | '\\' :: 't' :: v => '\t' :: jsonUnescape v
  | '\\' :: 'u' :: v =>
    match jsonHex4 v with
    | none    => jsonUnescape v
    | some hi =>
      match lowSurrogate hi (v.drop 4) with
      | some lo =>
        jsonUtf8Encode (0x10000 + (hi - 0xd800) * 0x400 + (lo - 0xdc00)) ++ jsonUnescape (v.drop 10)
      | none    => jsonUtf8Encode hi ++ jsonUnescape (v.drop 4)
  | '\\' :: c :: v => c :: jsonUnescape v
  | c :: v         => c :: jsonUnescape v
termination_by v => v.length
decreasing_by all_goals simp; try omega

def jsonGetStr (body key : CString) : Option CString :=
  match jsonFindValue key body with
  | some ('"' :: v) => some (jsonUnescape v)
  | _               => none

-- What a format of the layer has in the place of a value: `\"%s\"` for an escaped string, `%d` and
-- `%zu` for a number, and `%.6f` for a double, which is a whole number that doubles have exactly.
inductive JsonValue
  | string (s : CString)
  | number (n : Int)
  | whole (n : Nat) (exact : n ≤ 9007199254740992)

namespace JsonValue

-- The value that each of the calls `e ? e : ""` puts there.
def written (s : CString) : CString :=
  (jsonEscape s).getD []

def text : JsonValue → CString
  | string s  => '"' :: written s ++ ['"']
  | number n  => formatInt64 n
  | whole n _ => Nat.toDigits 10 n ++ ".000000".toList

-- Whether the accessor of the value's type finds it in the text.
def ReadFrom (body key : CString) : JsonValue → Prop
  | string s  => jsonGetStr body key = some s
  | number n  => jsonGetLong body key = some n
  | whole n _ => jsonGetDouble body key = some (n : ℚ)

end JsonValue

structure JsonField where
  name  : CString
  value : JsonValue

def JsonField.text (f : JsonField) : CString :=
  '"' :: f.name ++ '"' :: ':' :: f.value.text

def IsName (n : CString) : Prop :=
  n ≠ [] ∧ ∀ c ∈ n, c.isAlphanum ∨ c = '_'

-- The names that one object has.
def AreNames (ns : List CString) : Prop :=
  (∀ n ∈ ns, IsName n) ∧ ns.Nodup

instance : Decidable (IsName n) :=
  inferInstanceAs (Decidable (_ ∧ _))

instance : Decidable (AreNames ns) :=
  inferInstanceAs (Decidable (_ ∧ _))

structure JsonObject where
  fields : List JsonField
  names  : AreNames (fields.map JsonField.name)

def JsonObject.text (o : JsonObject) : CString :=
  '{' :: [','].intercalate (o.fields.map JsonField.text) ++ ['}']

section Fields

variable (name : String)

def str (s : CString) : JsonField := ⟨name.toList, .string s⟩

def num (n : Int) : JsonField := ⟨name.toList, .number n⟩

def flag (b : Bool) : JsonField := num name (if b then 1 else 0)

end Fields

theorem areNames_map (ns : List String) (h : AreNames (ns.map String.toList) := by decide) :
    AreNames (ns.map String.toList) :=
  h

namespace Rproc

variable (x y kind : Int) (origin : CString) (allow : Bool)

-- `ns_rproc_http_open_ex`
def openEx (url : CString) (width height settleMs : Int) (history userActivated : Bool) : JsonObject where
  fields := [str "url" url, num "width" width, num "height" height, num "settle_ms" settleMs,
    flag "history" history, flag "user_activated" userActivated]
  names  := areNames_map ["url", "width", "height", "settle_ms", "history", "user_activated"]

-- `ns_rproc_http_key_full`
def keyFull (key code : CString) (keycode mods : Int) : JsonObject where
  fields := [num "kind" kind, str "key" key, str "code" code, num "keycode" keycode, num "mods" mods]
  names  := areNames_map ["kind", "key", "code", "keycode", "mods"]

-- `ns_rproc_http_find`
def find (query : CString) (caseSensitive : Bool) (direction fromY : Int) : JsonObject where
  fields := [str "query" query, flag "case_sensitive" caseSensitive, num "direction" direction,
    num "from_y" fromY]
  names  := areNames_map ["query", "case_sensitive", "direction", "from_y"]

-- `ns_rproc_http_drop_files`, which puts a line break between the paths.
def dropFiles (paths : List CString) : JsonObject where
  fields := [num "x" x, num "y" y, str "paths" (['\n'].intercalate paths)]
  names  := areNames_map ["x", "y", "paths"]

-- `ns_rproc_http_resolve_webgl`
def resolveWebgl : JsonObject where
  fields := [str "origin" origin, flag "allow" allow]
  names  := areNames_map ["origin", "allow"]

-- `ns_rproc_http_resolve_camera`
def resolveCamera : JsonObject where
  fields := [str "origin" origin, flag "allow" allow]
  names  := areNames_map ["origin", "allow"]

-- `ns_rproc_http_video_event`
def videoEvent (token kind : CString) : JsonObject where
  fields := [str "token" token, str "kind" kind]
  names  := areNames_map ["token", "kind"]

-- `ns_rproc_http_eval`
def eval (src : CString) : JsonObject where
  fields := [str "src" src]
  names  := areNames_map ["src"]

-- `ns_rproc_http_dump`
def dump (kind : CString) : JsonObject where
  fields := [str "kind" kind]
  names  := areNames_map ["kind"]

-- `ns_rproc_http_export`
def exportPage (path : CString) : JsonObject where
  fields := [str "path" path]
  names  := areNames_map ["path"]

-- `NS_PRINT_RASTER_SCALE`
def printRasterScale : JsonValue :=
  .whole 3 (by decide)

-- `ns_rproc_http_print`
def print (path : CString) : JsonObject where
  fields := [str "prefix" path, ⟨"scale".toList, printRasterScale⟩]
  names  := areNames_map ["prefix", "scale"]

end Rproc

namespace RendererServe

-- `reply_str`, which is called for the two keys `href` and `text`.
def replyStr (key : String) (val : CString) (h : AreNames [key.toList]) : JsonObject where
  fields := [str key val]
  names  := h

-- `reply_str2`, which is called for the keys `href` and `cursor`.
def replyStr2 (key1 key2 : String) (val1 val2 : CString) (h : AreNames [key1.toList, key2.toList]) :
    JsonObject where
  fields := [str key1 val1, str key2 val2]
  names  := h

def replyHrefChanged (href : CString) (changed : Bool) : JsonObject where
  fields := [str "href" href, flag "changed" changed]
  names  := areNames_map ["href", "changed"]

-- The replies of `ns_renderer_session_handle`, under the path that each of them answers.

def openReply (ok pageWidth pageHeight security : Int) (title url nav ip : CString) : JsonObject where
  fields := [num "ok" ok, num "page_width" pageWidth, num "page_height" pageHeight, str "title" title,
    str "url" url, str "nav" nav, num "security" security, str "ip" ip]
  names  := areNames_map ["ok", "page_width", "page_height", "title", "url", "nav", "security", "ip"]

def tickReply (changed animating : Bool) (pageWidth pageHeight : Int)
    (nav webgl camera download audio windowAction : CString) : JsonObject where
  fields := [num "ok" 1, flag "changed" changed, flag "animating" animating, num "page_width" pageWidth,
    num "page_height" pageHeight, str "nav" nav, str "webgl" webgl, str "camera" camera,
    str "download" download, str "audio" audio, str "window_action" windowAction]
  names  := areNames_map ["ok", "changed", "animating", "page_width", "page_height", "nav", "webgl", "camera",
    "download", "audio", "window_action"]

def keyReply (href : CString) (prevented : Bool) : JsonObject where
  fields := [str "href" href, flag "prevented" prevented]
  names  := areNames_map ["href", "prevented"]

def hoverReply (changed : Bool) (href cursor : CString) : JsonObject where
  fields := [flag "changed" changed, str "href" href, str "cursor" cursor]
  names  := areNames_map ["changed", "href", "cursor"]

def focusedEditableStateReply (active : Bool) (caret anchor : Nat) (value : CString) : JsonObject where
  fields := [flag "active" active, num "caret" caret, num "anchor" anchor, str "value" value]
  names  := areNames_map ["active", "caret", "anchor", "value"]

def mediaReply (url : CString) (isVideo stream : Int) : JsonObject where
  fields := [str "url" url, num "is_video" isVideo, num "stream" stream]
  names  := areNames_map ["url", "is_video", "stream"]

end RendererServe

end Nordstjernen.Ipc
