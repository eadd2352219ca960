import SpiderNode.Files.Path
import SpiderNode.Regex.Backtracking
import SpiderNode.Text.Numerals

/-!
# Urls

`parse` and `format` of `lib/url.js`, without the option `parseQueryString`. A url is read from the
front: the protocol, the slashes, the host, and what follows the host, which is chopped at the first
delimiter and split at `#` and `?`. There is a definition for each of these steps.

The delimiters are searched with `indexOf`. One of them is meant as a regular expression for white
space, `/\s/`, but `indexOf` searches the text of it.
-/

namespace SpiderNode.Urls

open Files (slash)
open Regex Pattern

/-! ## Tables -/

def unsafeProtocol : List JSString := [js "javascript", js "javascript:"]

def hostlessProtocol : List JSString :=
  [js "javascript", js "javascript:", js "file", js "file:"]

def slashedProtocol : List JSString :=
  [js "http", js "https", js "ftp", js "gopher", js "file", js "http:", js "https:", js "ftp:",
    js "gopher:", js "file:"]

/-- `table[proto]`; there is no entry for `null`. -/
def listed (table : List JSString) (proto : Option JSString) : Bool :=
  match proto with
  | some p => p ∈ table
  | none => false

/-- The units of `delims`. -/
def delimUnits : List UInt16 := [0x3C, 0x3E, 0x22, 0x27, 0x60]

/-- What `indexOf(/\s/)` searches. -/
def whiteRe : JSString := js "/\\s/"

def delims : List JSString := delimUnits.map ([·]) ++ [whiteRe]

/-- The units of `nonHostChars`. -/
def nonHostUnits : List UInt16 :=
  [slash, 0x3F, 0x3B, 0x23] ++ [0x7B, 0x7D, 0x7C, 0x5C, 0x5E, 0x7E, 0x5B, 0x5D, 0x60] ++ delimUnits

def nonHostChars : List JSString := nonHostUnits.map ([·]) ++ [whiteRe]

/-! ## Searching -/

def indexOf (pattern : JSString) : JSString → Option ℕ
  | [] => if pattern = [] then some 0 else none
  | u :: s => if pattern <+: u :: s then some 0 else (indexOf pattern s).map (· + 1)

/-- The loops over `nonHostChars` and `delims`: the least position where one of the patterns is
found, or the end. -/
def cut (patterns : List JSString) (s : JSString) : ℕ :=
  patterns.foldl (fun n pattern ↦ min n ((indexOf pattern s).getD n)) s.length

/-- The search ends where one of the patterns begins. -/
theorem cut_cons (patterns : List JSString) (u : UInt16) (s : JSString) :
    cut patterns (u :: s) =
      if ∃ pattern ∈ patterns, pattern <+: u :: s then 0 else cut patterns s + 1 := by
  rw [cut, cut, List.length_cons]
  generalize s.length = n
  induction patterns generalizing n with
  | nil => simp
  | cons pattern patterns ih =>
    rw [List.foldl_cons, List.foldl_cons, indexOf]
    by_cases h : pattern <+: u :: s
    · rw [if_pos h, if_pos ⟨pattern, List.mem_cons_self, h⟩, Option.getD_some, Nat.min_zero]
      -- it stays at the beginning
      clear ih
      induction patterns with
      | nil => rfl
      | cons pattern patterns ih => rwa [List.foldl_cons, Nat.zero_min]
    · have hmin : min (n + 1) (((indexOf pattern s).map (· + 1)).getD (n + 1)) =
          min n ((indexOf pattern s).getD n) + 1 := by
        rcases indexOf pattern s with _ | i
        · show min (n + 1) (n + 1) = min n n + 1
          rw [Nat.min_self, Nat.min_self]
        · exact Nat.add_min_add_right n i 1
      rw [if_neg h, hmin, ih]
      refine if_congr ?_ rfl rfl
      rw [List.exists_mem_cons_iff]
      exact (or_iff_right h).symm

/-- `s` up to the first unit `u`, and from there on. -/
def splitAtUnit (u : UInt16) (s : JSString) : JSString × Option JSString :=
  (s.takeWhile (· ≠ u), if u ∈ s then some (s.dropWhile (· ≠ u)) else none)

/-! ## The steps of `parse` -/

def isLowerAlnum (u : UInt16) : Bool := isDigit u || (0x61 ≤ u && u ≤ 0x7A)

/-- `/^([a-z0-9]+:)/` -/
def protocolPattern : Pattern UInt16 JSString := do
  let name ← plus isLowerAlnum
  let u ← one (· = 0x3A)
  return name ++ [u]

/-- `/^\/\/[^@\/]+@[^@\/]+/` -/
def userPattern : Pattern UInt16 Unit := do
  let _ ← one (· = slash)
  let _ ← one (· = slash)
  let _ ← plus fun u ↦ u ≠ 0x40 && u ≠ slash
  let _ ← one (· = 0x40)
  let _ ← plus fun u ↦ u ≠ 0x40 && u ≠ slash
  return ()

/-- `/:[0-9]+$/` -/
def portPattern : Pattern UInt16 JSString := do
  let u ← one (· = 0x3A)
  let digits ← plus isDigit
  atEnd
  return u :: digits

/-- `/^[a-z0-9][a-z0-9A-Z-]{0,62}$/` -/
def isHostnamePart : JSString → Bool
  | u :: s => isLowerAlnum u && s.length ≤ 62 &&
    s.all fun u ↦ isLowerAlnum u || (0x41 ≤ u && u ≤ 0x5A) || u == 0x2D
  | [] => false

structure HostParts where
  auth : Option JSString
  port : Option JSString
  hostname : Option JSString

def parseHost (host : JSString) : HostParts :=
  let (auth, host) := match splitAtUnit 0x40 host with
    | (auth, some rest) => (some auth, rest.tail)
    | (_, none) => (none, host)
  let (port, host) := match search portPattern host with
    | some port => (some port.tail, host.take (host.length - port.length))
    | none => (none, host)
  ⟨auth, port, if host ≠ [] then some host else none⟩

def hostnameMaxLen : ℕ := 255

/-- A host name that is not valid is dropped. -/
def validated (hostname : JSString) : JSString :=
  if hostnameMaxLen < hostname.length then []
  else if (hostname.splitOn 0x2E).all isHostnamePart then hostname
  else []

section Steps

variable (slashesDenoteHost : Bool) (url : JSString)

def protocolOf : Option JSString := protocolPattern.exec url

def afterProtocol : JSString := url.drop ((protocolOf url).getD []).length

/-- The variable `slashes`. -/
def seesSlashes : Bool :=
  (slashesDenoteHost || (protocolOf url).isSome || (userPattern.exec (afterProtocol url)).isSome) &&
    (afterProtocol url).take 2 = [slash, slash]

/-- The slashes are taken off. -/
def slashesOf : Bool :=
  seesSlashes slashesDenoteHost url && !listed hostlessProtocol (protocolOf url)

def afterSlashes : JSString :=
  if slashesOf slashesDenoteHost url then (afterProtocol url).drop 2 else afterProtocol url

def hasHost : Bool :=
  !listed hostlessProtocol (protocolOf url) &&
    (seesSlashes slashesDenoteHost url ||
      (protocolOf url).isSome && !listed slashedProtocol (protocolOf url))

def hostOf : Option JSString :=
  let rest := afterSlashes slashesDenoteHost url
  if hasHost slashesDenoteHost url then some (rest.take (cut nonHostChars rest)) else none

def afterHost : JSString :=
  let rest := afterSlashes slashesDenoteHost url
  if hasHost slashesDenoteHost url then rest.drop (cut nonHostChars rest) else rest

/-- The host name, if there is a host. -/
def hostnameOf : Option JSString :=
  (hostOf slashesDenoteHost url).map fun host ↦ validated ((parseHost host).hostname.getD [])

/-- `chop off any delim chars` -/
def chopped : JSString :=
  let rest := afterHost slashesDenoteHost url
  if listed unsafeProtocol (protocolOf url) then rest else rest.take (cut delims rest)

end Steps

/-! The rest is split from the tail. -/

def hashOf (rest : JSString) : Option JSString := (splitAtUnit 0x23 rest).2

def searchOf (rest : JSString) : Option JSString := (splitAtUnit 0x3F (splitAtUnit 0x23 rest).1).2

def pathOf (rest : JSString) : JSString := (splitAtUnit 0x3F (splitAtUnit 0x23 rest).1).1

/-- After a host there is a path at least, if the protocol is one of those with slashes. -/
def pathnameOf (protocol hostname : Option JSString) (rest : JSString) : Option JSString :=
  if pathOf rest ≠ [] then some (pathOf rest)
  else if listed slashedProtocol protocol && hostname.getD [] ≠ [] then some [slash]
  else none

/-! ## `format` -/

structure Url where
  protocol : Option JSString
  slashes : Bool
  host : Option JSString
  auth : Option JSString
  port : Option JSString
  hostname : Option JSString
  hash : Option JSString
  search : Option JSString
  query : Option JSString
  pathname : Option JSString
  href : Option JSString

/-- `s.charAt(0) !== u && s`, with `u` put in front otherwise. -/
def withFirst (u : UInt16) (s : JSString) : JSString :=
  if s ≠ [] ∧ s.head? ≠ some u then u :: s else s

/-- `urlFormat` of an object. A query that is a string is not looked at. -/
def urlFormat (obj : Url) : JSString :=
  let protocol := obj.protocol.getD []
  let host : Option JSString :=
    match obj.host, obj.hostname with
    | some host, _ => some host
    | none, some hostname =>
      let auth := obj.auth.getD []
      let port := obj.port.getD []
      some ((if auth ≠ [] then auth ++ js "@" else []) ++ hostname ++
        if port ≠ [] then js ":" ++ port else [])
    | none, none => none
  let protocol :=
    if protocol ≠ [] ∧ protocol.getLast? ≠ some 0x3A then protocol ++ js ":" else protocol
  let slashed := obj.slashes ||
    (protocol = [] || listed slashedProtocol (some protocol)) && host.isSome
  let pathname := obj.pathname.getD []
  let pathname := if slashed then withFirst slash pathname else pathname
  protocol ++ (if slashed then js "//" else []) ++ host.getD [] ++ pathname ++
    withFirst 0x3F (obj.search.getD []) ++ withFirst 0x23 (obj.hash.getD [])

/-- The object without its `href`. -/
def taken (slashesDenoteHost : Bool) (url : JSString) : Url :=
  let parts := (hostOf slashesDenoteHost url).map parseHost
  let rest := chopped slashesDenoteHost url
  { protocol := protocolOf url
    slashes := slashesOf slashesDenoteHost url
    host := hostOf slashesDenoteHost url
    auth := parts.bind HostParts.auth
    port := parts.bind HostParts.port
    hostname := hostnameOf slashesDenoteHost url
    hash := hashOf rest
    search := searchOf rest
    query := (searchOf rest).map List.tail
    pathname := pathnameOf (protocolOf url) (hostnameOf slashesDenoteHost url) rest
    href := none }

/-- `urlParse` of a string. -/
def urlParse (slashesDenoteHost : Bool) (url : JSString) : Url :=
  { taken slashesDenoteHost url with href := some (urlFormat (taken slashesDenoteHost url)) }

/-- `urlFormat` of a string. -/
def urlFormatString (url : JSString) : JSString := urlFormat (urlParse false url)

end SpiderNode.Urls
