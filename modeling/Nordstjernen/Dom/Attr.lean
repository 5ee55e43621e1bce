import Nordstjernen.Glib.Strings

open Nordstjernen.Glib

namespace Nordstjernen.Dom

def nsStrIsAsciiLower (s : CString) : Bool :=
  s.all fun c => !c.isUpper

structure Attr where
  name         : CString
  value        : CString
  namespaceUri : Option CString := none
  localName    : Option CString := none
deriving DecidableEq

namespace Attr

-- `NS_ATTR_NAME_LOWER`, which is set like this wherever an attribute is made.
def nameLower (a : Attr) : Bool :=
  nsStrIsAsciiLower a.name

-- `ns_attr_local_name`
def local' (a : Attr) : CString :=
  a.localName.getD a.name

-- Whether `ns_element_find_attr` stops at an attribute of an element, which may be an SVG element.
def named (svg : Bool) (name : CString) (a : Attr) : Bool :=
  if svg then a.name == name
  else if nsStrIsAsciiLower name && a.nameLower then a.name.head? == name.head? && a.name == name
  else strcaseEq a.name name

def normalizeNamespace (uri : Option CString) : Option CString :=
  uri.filter (· ≠ [])

def matchesNs (uri : Option CString) (localName : CString) (a : Attr) : Bool :=
  normalizeNamespace a.namespaceUri == normalizeNamespace uri && a.local' == localName

end Attr

-- `classSet` is the cache of the tokens, if there is one.
structure Element where
  svg      : Bool                  := false
  attrs    : List Attr             := []
  classSet : Option (List CString) := none
deriving DecidableEq

def clssetWs (c : Char) : Bool :=
  c == ' ' || c == '\t' || c == '\n' || c == '\r' || c == '\x0c'

-- The loop of `ns_class_set_build`, where a token has been read in part.
def buildFrom (tok : CString) : CString → List CString
  | []      => if tok = [] then [] else [tok]
  | c :: cs =>
    if clssetWs c then if tok = [] then buildFrom [] cs else tok :: buildFrom [] cs
    else buildFrom (tok ++ [c]) cs

def nsClassSetBuild (cls : CString) : List CString :=
  buildFrom [] cls

-- Gives the first attribute of a kind a value, or appends an attribute.
def putAttr (p : Attr → Bool) (new : Attr) : List Attr → List Attr
  | []      => [new]
  | a :: as => if p a then { a with value := new.value } :: as else a :: putAttr p new as

namespace Element

def findAttr (el : Element) (name : CString) : Option Attr :=
  el.attrs.find? (Attr.named el.svg name)

def getAttr (el : Element) (name : CString) : Option CString :=
  (el.findAttr name).map fun a => gStrndup a.value

def clearClassSet (el : Element) : Element :=
  { el with classSet := none }

-- What every call that changes an attribute begins with.
def dropClassSet (el : Element) (isClass : Bool) : Element :=
  if el.classSet.isSome && isClass then el.clearClassSet else el

def setAttr (el : Element) (name value : CString) : Element :=
  { el.dropClassSet (strcaseEq name "class".toList) with
    attrs := putAttr (strcaseEq ·.name name) { name, value } el.attrs }

-- Whether the namespaced calls drop the cache.
def isClassNs (uri : Option CString) (localName : CString) : Bool :=
  (Attr.normalizeNamespace uri).isNone && strcaseEq localName "class".toList

def setAttrNs (el : Element) (uri : Option CString) (localName name value : CString) : Element :=
  let new :=
    { name         := if name = [] then localName else name
      value
      namespaceUri := Attr.normalizeNamespace uri
      localName    := some localName }
  { el.dropClassSet (isClassNs uri localName) with
    attrs := putAttr (Attr.matchesNs uri localName) new el.attrs }

def removeAttr (el : Element) (name : CString) : Element :=
  { el.dropClassSet (strcaseEq name "class".toList) with
    attrs := el.attrs.eraseP (strcaseEq ·.name name) }

def removeAttrNs (el : Element) (uri : Option CString) (localName : CString) : Element :=
  { el.dropClassSet (isClassNs uri localName) with
    attrs := el.attrs.eraseP (Attr.matchesNs uri localName) }

-- What `ns_node_has_class` puts into the cache where there is nothing in it.
def buildClassSet (el : Element) : List CString :=
  match el.getAttr "class".toList with
  | some cls => if cls = [] then [] else nsClassSetBuild cls
  | none     => []

def hasClass (el : Element) (c : CString) : Bool × Element :=
  let cs := el.classSet.getD el.buildClassSet
  (cs.contains c, { el with classSet := some cs })

-- In a namespaced call, the qualified name is empty where none is given.
inductive Event
  | setAttr (name value : CString)
  | setAttrNs (uri : Option CString) (localName name value : CString)
  | removeAttr (name : CString)
  | removeAttrNs (uri : Option CString) (localName : CString)
  | hasClass (c : CString)

def step (el : Element) : Event → Element
  | .setAttr name value                  => el.setAttr name value
  | .setAttrNs uri localName name value  => el.setAttrNs uri localName name value
  | .removeAttr name                     => el.removeAttr name
  | .removeAttrNs uri localName          => el.removeAttrNs uri localName
  | .hasClass c                          => (el.hasClass c).snd

end Element

end Nordstjernen.Dom
