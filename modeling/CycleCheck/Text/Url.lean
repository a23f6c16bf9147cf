import CycleCheck.Text.Bytes
import CycleCheck.Text.Digits

/-!
URLs, as far as their scheme and path. A text that is no URL has neither.
-/

namespace CycleCheck.Text

structure Url where
  scheme : String
  path : String
deriving DecidableEq

namespace Url

/-- Splits at the first occurrence of a character. -/
def cut (c : Char) (cs : List Char) : List Char × Option (List Char) :=
  match cs.dropWhile (· ≠ c) with
  | [] => (cs, none)
  | _ :: rest => (cs.takeWhile (· ≠ c), some rest)

def isSchemeChar (c : Char) : Bool := c.isAlphanum || c = '+' || c = '-' || c = '.'

/-- The scheme before a colon and what follows; no scheme if the text does not start like one.
Nothing if the text starts with the colon. -/
def splitScheme (cs : List Char) : Option (List Char × List Char) :=
  let lead := cs.takeWhile isSchemeChar
  match cs.dropWhile isSchemeChar with
  | ':' :: rest =>
      match lead with
      | [] => none
      | c :: _ => if c.isAlpha then some (lead, rest) else some ([], cs)
  | _ => some ([], cs)

/-- Decodes percent escapes into bytes. A percent sign that starts no escape is refused. -/
def unescape : List Char → Option (List UInt8)
  | [] => some []
  | '%' :: a :: b :: rest =>
      match digitValue? a, digitValue? b with
      | some x, some y => do
          let bytes ← unescape rest
          pure ((x * 16 + y).toUInt8 :: bytes)
      | _, _ => none
  | '%' :: _ => none
  | c :: rest => do
      let bytes ← unescape rest
      pure (c.toString.toUTF8.toList ++ bytes)

/-- The ASCII characters a host may have as they are. -/
def isHostChar (c : Char) : Bool :=
  c.toNat ≥ 0x80 || c.isAlphanum || "!$&'()*+,;=:[]<>\"-_.~".toList.contains c

/-- A host, where only bytes beyond ASCII and the percent sign may be escaped. -/
def hostOk : List Char → Bool
  | [] => true
  | '%' :: a :: b :: rest =>
      match digitValue? a, digitValue? b with
      | some x, some _ => (x ≥ 8 || (a = '2' && b = '5')) && hostOk rest
      | _, _ => false
  | '%' :: _ => false
  | c :: rest => isHostChar c && hostOk rest

/-- What may follow a host: nothing, or a colon and digits. -/
def portOk : List Char → Bool
  | [] => true
  | c :: rest => c = ':' && rest.all Char.isDigit

/-- What follows the last occurrence of a character, with what stands before it. -/
def cutLast (c : Char) (cs : List Char) : Option (List Char × List Char) :=
  match cut c cs.reverse with
  | (tail, some lead) => some (lead.reverse, tail.reverse)
  | _ => none

/-- A zone, in which escapes may stand for what a host may have. -/
def zoneOk : List Char → Bool
  | [] => true
  | '%' :: a :: b :: rest =>
      match digitValue? a, digitValue? b with
      | some x, some y =>
          let v := x * 16 + y
          (v = 0x25 || v = 0x20 || v ≥ 0x80 || isHostChar (Char.ofNat v)) && zoneOk rest
      | _, _ => false
  | '%' :: _ => false
  | c :: rest => isHostChar c && zoneOk rest

/-- What stands before the first escaped percent sign, and the rest from there on. -/
def splitZone : List Char → Option (List Char × List Char)
  | [] => none
  | '%' :: '2' :: '5' :: rest => some ([], '%' :: '2' :: '5' :: rest)
  | c :: rest => (splitZone rest).map fun (a, b) => (c :: a, b)

def serverOk (host : List Char) : Bool :=
  match host with
  | '[' :: _ =>
      match cutLast ']' host with
      | none => false
      | some (inside, port) =>
          portOk port && match splitZone inside with
            | some (address, zone) => hostOk address && zoneOk zone && hostOk (']' :: port)
            | none => hostOk host
  | _ =>
      (match cutLast ':' host with
        | some (_, port) => portOk (':' :: port)
        | none => true) && hostOk host

def isUserChar (c : Char) : Bool := c.isAlphanum || "-._:~!$&'()*+,;=%@".toList.contains c

/-- User information and a host. -/
def authorityOk (cs : List Char) : Bool :=
  match cutLast '@' cs with
  | none => serverOk cs
  | some (user, host) => serverOk host && user.all isUserChar && (unescape user).isSome

/-- The path behind the authority, if there is one. -/
def splitAuthority (scheme rest : List Char) : Option (List Char) :=
  match rest with
  | '/' :: '/' :: more =>
      if scheme.isEmpty && more.head? = some '/' then some rest
      else
        let authority := more.takeWhile (· ≠ '/')
        if authorityOk authority then some (more.dropWhile (· ≠ '/')) else none
  | _ => some rest

def isControl (c : Char) : Bool := c.toNat < 0x20 || c.toNat = 0x7f

/-- A URL without its fragment. A path that has a scheme but no root is not taken as a path. -/
def parsePlain (cs : List Char) : Option Url :=
  if cs.any isControl then none
  else if cs = ['*'] then some ⟨"", "*"⟩
  else do
    let (scheme, rest) ← splitScheme cs
    let name := String.ofList (scheme.map Char.toLower)
    let rest := (cut '?' rest).1
    if rest.head? ≠ some '/' ∧ !scheme.isEmpty then pure ⟨name, ""⟩
    else if rest.head? ≠ some '/' ∧ (rest.takeWhile (· ≠ '/')).contains ':' then none
    else do
      let path ← splitAuthority scheme rest
      let bytes ← unescape path
      pure ⟨name, decodeBytes bytes⟩

/-- Reads a URL. -/
def parse? (s : String) : Option Url :=
  match cut '#' s.toList with
  | (cs, none) => parsePlain cs
  | (cs, some fragment) => do
      let url ← parsePlain cs
      let _ ← unescape fragment
      pure url

end Url

end CycleCheck.Text
