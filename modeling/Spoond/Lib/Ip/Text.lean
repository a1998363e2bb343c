import Spoond.Lib.Ip

namespace Spoond.Lib.Ip

def digits (base : Nat) : Nat → Nat → List Nat
  | 0, _ => []
  | k + 1, n => digits base k (n / base) ++ [n % base]

def ofDigits (base : Nat) (ds : List Nat) : Nat :=
  ds.foldl (fun n d => n * base + d) 0

def parseOctet (s : Text) : Option Nat :=
  if s ≠ [] ∧ s.all Char.isDigit ∧ (s.length = 1 ∨ s.head? ≠ some '0') ∧ Nat.ofDigitChars 10 s 0 ≤ 255 then
    some (Nat.ofDigitChars 10 s 0)
  else none

def parseIPv4Fields (s : Text) : Option (List Nat) :=
  if (s.splitOn '.').length = 4 then (s.splitOn '.').mapM parseOctet else none

def isHex (c : Char) : Bool :=
  c.isDigit || (decide ('a' ≤ c) && decide (c ≤ 'f')) || (decide ('A' ≤ c) && decide (c ≤ 'F'))

def hexDigit (c : Char) : Nat :=
  if c.isDigit then c.toNat - 48 else if 'a' ≤ c then c.toNat - 87 else c.toNat - 55

def hexValue (s : Text) : Nat :=
  s.foldl (fun n c => n * 16 + hexDigit c) 0

-- The groups of an IPv6 address from left to right, with room for so many more: hexadecimal groups, a
-- `::` whose place is kept, and a dotted form in the place of the last two.
def parseGroups : Nat → Text → List Nat → Option Nat → Option (Text × List Nat × Option Nat)
  | 0, s, groups, ellipsis => some (s, groups, ellipsis)
  | room + 1, s, groups, ellipsis =>
    let hex := s.takeWhile isHex
    if hex = [] ∨ 4 < hex.length then none
    else
      match s.drop hex.length with
      | [] => some ([], groups ++ [hexValue hex], ellipsis)
      | '.' :: _ =>
        if (ellipsis = none ∧ groups.length ≠ 6) ∨ 6 < groups.length then none
        else
          (parseIPv4Fields s).map fun b =>
            ([], groups ++ [ofDigits 256 (b.take 2), ofDigits 256 (b.drop 2)], ellipsis)
      | ':' :: ':' :: rest =>
        if ellipsis.isSome then none
        else if rest = [] then some ([], groups ++ [hexValue hex], some (groups.length + 1))
        else parseGroups room rest (groups ++ [hexValue hex]) (some (groups.length + 1))
      | ':' :: rest => if rest = [] then none else parseGroups room rest (groups ++ [hexValue hex]) ellipsis
      | _ => none

-- The whole text must be used; the `::` stands for at least one group of zeros.
def joinGroups : Text × List Nat × Option Nat → Option IP
  | ([], groups, none) => if groups.length = 8 then some (BitVec.ofNat 128 (ofDigits 65536 groups)) else none
  | ([], groups, some e) =>
    if groups.length < 8 then
      some (BitVec.ofNat 128
        (ofDigits 65536 (groups.take e ++ List.replicate (8 - groups.length) 0 ++ groups.drop e)))
    else none
  | _ => none

-- An address with a zone is refused.
def parseIPv6 (s : Text) : Option IP :=
  if '%' ∈ s then none
  else
    match s with
    | [':', ':'] => some 0
    | ':' :: ':' :: rest => (parseGroups 8 rest [] (some 0)).bind joinGroups
    | _ => (parseGroups 8 s [] none).bind joinGroups

structure Addr where
  ip : IP
  bits : Nat
  family : bits = 32 ∧ is4 ip = true ∨ bits = 128

def addr4 (a : Nat) : Addr :=
  ⟨ofV4 a, 32, .inl ⟨rfl, is4_ofV4 a⟩⟩

def addr6 (ip : IP) : Addr :=
  ⟨ip, 128, .inr rfl⟩

-- The first dot, colon or percent sign decides the form.
def parseAddr (s : Text) : Option Addr :=
  match s.find? fun c => c = '.' || c = ':' || c = '%' with
  | some '.' => (parseIPv4Fields s).map fun b => addr4 (ofDigits 256 b)
  | some ':' => (parseIPv6 s).map addr6
  | _ => none

def parseIP (s : Text) : Option IP :=
  (parseAddr s).map (·.ip)

def Addr.net (a : Addr) (ones : Nat) (h : ones ≤ a.bits) : IPNet where
  ip := mask a.ip (a.bits - ones)
  ones := ones
  bits := a.bits
  ones_le := h
  family := by
    rcases a.family with ⟨hbits, h4⟩ | hbits
    · exact .inl ⟨hbits, by rw [is4_mask _ (by omega), h4]⟩
    · exact .inr hbits
  masked := mask_mask _ _

def parseMask (s : Text) : Option Nat :=
  if s ≠ [] ∧ s.all Char.isDigit then some (Nat.ofDigitChars 10 s 0) else none

def parseCIDR (s : Text) : Option IPNet :=
  match s.dropWhile (· ≠ '/') with
  | '/' :: m =>
    match parseAddr (s.takeWhile (· ≠ '/')), parseMask m with
    | some a, some ones => if h : ones ≤ a.bits then some (a.net ones h) else none
    | _, _ => none
  | _ => none

def dotted (ip : IP) : Text :=
  ['.'].intercalate ((digits 256 4 ip.toNat).map (Nat.toDigits 10))

def hexText (groups : List Nat) : Text :=
  [':'].intercalate (groups.map (Nat.toDigits 16))

-- The first of the longest runs of two or more zero groups: where it starts and how long it is.
def zeroRun (groups : List Nat) : Option (Nat × Nat) :=
  (List.range 8).foldl
    (fun best i =>
      let run := ((groups.drop i).takeWhile (· = 0)).length
      if 2 ≤ run ∧ (best.map (·.2)).getD 0 < run then some (i, run) else best)
    none

def groupsText (groups : List Nat) : Text :=
  match zeroRun groups with
  | none => hexText groups
  | some (start, run) => hexText (groups.take start) ++ ':' :: ':' :: hexText (groups.drop (start + run))

def ipText (ip : IP) : Text :=
  if is4 ip then dotted ip else groupsText (digits 65536 8 ip.toNat)

def IPNet.text (n : IPNet) : Text :=
  ipText n.ip ++ '/' :: Nat.toDigits 10 (if is4 n.ip then 32 - n.host else n.ones)

example : (parseIP "2001:DB8:0:0:1:0:0:1".toList).map ipText = some "2001:db8::1:0:0:1".toList := by decide +kernel
example : parseIP "192.0.2.7.".toList = none := by decide +kernel
example : (parseCIDR "::ffff:192.0.2.7/120".toList).map IPNet.text = some "192.0.2.0/24".toList := by decide +kernel

end Spoond.Lib.Ip
