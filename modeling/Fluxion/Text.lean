/-! Texts as lists of characters: their white space, which is the Unicode property
`White_Space`, the balance of their parentheses, and their lines. -/
namespace Fluxion.Text

/-- The ranges of code points with the property, their ends included. -/
def blankRanges : List (Nat × Nat) :=
  [(0x0009, 0x000D), (0x0020, 0x0020), (0x0085, 0x0085), (0x00A0, 0x00A0), (0x1680, 0x1680),
    (0x2000, 0x200A), (0x2028, 0x2029), (0x202F, 0x202F), (0x205F, 0x205F), (0x3000, 0x3000)]

def isBlank (c : Char) : Bool := blankRanges.any fun (a, b) => a ≤ c.toNat && c.toNat ≤ b

def strip (s : List Char) : List Char := s.filter (! isBlank ·)

def trimStart (s : List Char) : List Char := s.dropWhile isBlank

def trim (s : List Char) : List Char := (trimStart (trimStart s).reverse).reverse

/-- Where the balance fails, in bytes: at a closing parenthesis without a partner
or at the end of the text. There are `depth` open groups and `offset` bytes in
front. -/
def unbalancedFrom? (depth offset : Nat) : List Char → Option Nat
  | [] => if depth = 0 then none else some offset
  | c :: cs =>
    if c = '(' then unbalancedFrom? (depth + 1) (offset + c.utf8Size) cs
    else if c = ')' then
      match depth with
      | 0 => some offset
      | depth + 1 => unbalancedFrom? depth (offset + c.utf8Size) cs
    else unbalancedFrom? depth (offset + c.utf8Size) cs

def unbalanced? (s : List Char) : Option Nat := unbalancedFrom? 0 0 s

/-- The bytes of a text in UTF-8. -/
def encode (s : List Char) : List UInt8 := s.flatMap String.utf8EncodeChar

@[simp] theorem encode_nil : encode [] = [] := rfl

@[simp] theorem encode_cons (c : Char) (s : List Char) :
    encode (c :: s) = String.utf8EncodeChar c ++ encode s := rfl

@[simp] theorem encode_append (s t : List Char) : encode (s ++ t) = encode s ++ encode t :=
  List.flatMap_append

/-- The text that some bytes are in UTF-8, if they are one. -/
def decode? (bs : List UInt8) : Option (List Char) := bs.toByteArray.utf8Decode?.map Array.toList

/-- Bytes as they are read, up to a line feed and with it. The last ones may have none. -/
def rawLines : List UInt8 → List (List UInt8)
  | [] => []
  | b :: rest =>
    if b = 10 then [b] :: rawLines rest
    else
      match rawLines rest with
      | [] => [[b]]
      | line :: more => (b :: line) :: more

/-- A line without its end, which is a line feed and the carriage return in front of it. -/
def chop (raw : List Char) : List Char :=
  match raw.reverse with
  | '\n' :: '\r' :: line => line.reverse
  | '\n' :: line => line.reverse
  | _ => raw

/-- The line that some bytes are, if they can be read. -/
def line? (raw : List UInt8) : Option (List Char) := (decode? raw).map chop

/-- The text of some lines, a line feed after each. -/
def unlines (ls : List (List Char)) : List Char := ls.flatMap (· ++ ['\n'])

/-- The part in front of the first separator, and the part behind it if there is
one. -/
def splitFirst (separator : Char) (s : List Char) : List Char × Option (List Char) :=
  (s.takeWhile (· != separator), (s.dropWhile (· != separator)).tail?)

end Fluxion.Text
