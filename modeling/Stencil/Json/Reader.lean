import Stencil.Hex
import Stencil.Json.Number

/-!
# Reading JSON

Reading goes from left to right and stops at the first fault. Each reader takes the characters ahead
and gives back what it read with the characters that remain.

A value whose content is of no interest is passed over: its form is checked, but its numbers may be
too large, its escapes may be half of a pair, and its nesting is not limited.
-/

namespace Stencil.Json

/-- A reader of `α`. -/
abbrev Reader (α : Type) := List Char → Except Fault (α × List Char)

/-- Whether the content of what is read counts. -/
inductive Use where
  | kept
  | passedOver
  deriving DecidableEq

namespace Reader

def skipBlank (cs : List Char) : List Char := cs.dropWhile isBlank

/-- The rest of a word whose first letter is read. -/
def word : List Char → List Char → Except Fault (List Char)
  | [], cs => .ok cs
  | _ :: _, [] => .error .truncated
  | w :: ws, c :: cs => if w = c then word ws cs else .error .malformed

/-- Four hexadecimal digits. Fewer than four bytes ahead are a text that is cut off. -/
def hex4 (cs : List Char) : Except Fault Nat :=
  match cs with
  | a :: b :: c :: d :: _ =>
      match hexValue? a, hexValue? b, hexValue? c, hexValue? d with
      | some a, some b, some c, some d => .ok (4096 * a + 256 * b + 16 * c + d)
      | _, _, _, _ => .error .malformed
  | cs => if (String.ofList cs).utf8ByteSize < 4 then .error .truncated else .error .malformed

def isHighSurrogate (n : Nat) : Bool := 0xD800 ≤ n && n ≤ 0xDBFF

def isLowSurrogate (n : Nat) : Bool := 0xDC00 ≤ n && n ≤ 0xDFFF

/-- The other half of a surrogate pair, after the four digits of the first. -/
def lowSurrogate (cs : List Char) : Except Fault Nat :=
  match cs with
  | [] => .error .truncated
  | ['\\'] => .error .truncated
  | '\\' :: 'u' :: cs => do
      let low ← hex4 cs
      if isLowSurrogate low then .ok low else .error .malformed
  | _ => .error .malformed

/-- The character that an escape stands for, with the number of characters after the backslash. -/
def escaped (use : Use) (cs : List Char) : Except Fault (Char × Nat) :=
  match cs with
  | [] => .error .truncated
  | '"' :: _ => .ok ('"', 1)
  | '\\' :: _ => .ok ('\\', 1)
  | '/' :: _ => .ok ('/', 1)
  | 'b' :: _ => .ok ('\x08', 1)
  | 'f' :: _ => .ok ('\x0c', 1)
  | 'n' :: _ => .ok ('\n', 1)
  | 'r' :: _ => .ok ('\r', 1)
  | 't' :: _ => .ok ('\t', 1)
  | 'u' :: cs => do
      let n ← hex4 cs
      if use = .passedOver then .ok (Char.ofNat n, 5)
      else if isLowSurrogate n then .error .malformed
      else if isHighSurrogate n then
        let low ← lowSurrogate (cs.drop 4)
        .ok (Char.ofNat (0x10000 + 1024 * (n - 0xD800) + (low - 0xDC00)), 11)
      else .ok (Char.ofNat n, 5)
  | _ => .error .malformed

/-- The characters of a string up to its closing quote. -/
def stringRest (use : Use) (sofar : String) (cs : List Char) : Except Fault (String × List Char) :=
  match cs with
  | [] => .error .truncated
  | '"' :: cs => .ok (sofar, cs)
  | '\\' :: cs =>
      match escaped use cs with
      | .error fault => .error fault
      | .ok (c, n) => stringRest use (sofar.push c) (cs.drop n)
  | c :: cs => if c.toNat < 32 then .error .malformed else stringRest use (sofar.push c) cs
termination_by cs.length
decreasing_by all_goals simp [List.length_drop]; try omega

/-- A number after its sign. One that is only passed over never counts as cut off. -/
def number (use : Use) (negative : Bool) : Reader Number := fun cs =>
  match Numeral.read negative cs with
  | .error fault => .error (if use = .passedOver then .malformed else fault)
  | .ok (numeral, cs) =>
      match numeral.value? with
      | some n => .ok (n, cs)
      | none => if use = .passedOver then .ok (.int 0, cs) else .error .malformed

/-- Whether another item stands ahead, inside brackets. The closing bracket is left ahead; a comma
is passed. -/
def more (closing : Char) (first : Bool) : Reader Bool := fun cs =>
  match skipBlank cs with
  | [] => .error .truncated
  | c :: cs =>
      if c = closing then .ok (false, c :: cs)
      else if first then .ok (true, c :: cs)
      else if c = ',' then
        match skipBlank cs with
        | [] => .error .truncated
        | d :: cs => if d = closing then .error .malformed else .ok (true, d :: cs)
      else .error .malformed

/-- The key of a field. -/
def key (use : Use) : Reader String := fun cs =>
  match cs with
  | '"' :: cs => stringRest use "" cs
  | _ => .error .malformed

def colon (cs : List Char) : Except Fault (List Char) :=
  match skipBlank cs with
  | [] => .error .truncated
  | ':' :: cs => .ok cs
  | _ => .error .malformed

/-- Put a field before others, unless its key comes again. -/
def consField (key : String) (value : Json) (fields : Fields) : Fields :=
  if (fields.lookup key).isSome then fields else (key, value) :: fields

mutual

/-- A value within `depth` levels of brackets. The fuel bounds the number of characters and items
on any path into the value. -/
def valueWith (use : Use) : Nat → Nat → Reader Json
  | 0, _, _ => .error .malformed
  | fuel + 1, depth, cs =>
      match skipBlank cs with
      | [] => .error .truncated
      | 'n' :: cs => do .ok (.null, ← word ['u', 'l', 'l'] cs)
      | 't' :: cs => do .ok (.bool true, ← word ['r', 'u', 'e'] cs)
      | 'f' :: cs => do .ok (.bool false, ← word ['a', 'l', 's', 'e'] cs)
      | '-' :: cs => do let (n, cs) ← number use true cs; .ok (.number n, cs)
      | '"' :: cs => do let (s, cs) ← stringRest use "" cs; .ok (.string s, cs)
      | '[' :: cs =>
          if use = .kept ∧ depth ≤ 1 then .error .malformed
          else do let (items, cs) ← itemsWith use fuel (depth - 1) true cs; .ok (.array items, cs)
      | '\x7b' :: cs =>
          if use = .kept ∧ depth ≤ 1 then .error .malformed
          else do let (fields, cs) ← fieldsWith use fuel (depth - 1) true cs; .ok (.object fields, cs)
      | c :: cs =>
          if isDigit c then do let (n, cs) ← number use false (c :: cs); .ok (.number n, cs)
          else .error .malformed

def itemsWith (use : Use) : Nat → Nat → Bool → Reader (List Json)
  | 0, _, _, _ => .error .malformed
  | fuel + 1, depth, first, cs => do
      let (another, cs) ← more ']' first cs
      if another then
        let (v, cs) ← valueWith use fuel depth cs
        let (rest, cs) ← itemsWith use fuel depth false cs
        .ok (v :: rest, cs)
      else .ok ([], cs.drop 1)

def fieldsWith (use : Use) : Nat → Nat → Bool → Reader Fields
  | 0, _, _, _ => .error .malformed
  | fuel + 1, depth, first, cs => do
      let (another, cs) ← more '\x7d' first cs
      if another then
        let (k, cs) ← key use cs
        let (v, cs) ← valueWith use fuel depth (← colon cs)
        let (rest, cs) ← fieldsWith use fuel depth false cs
        .ok (consField k v rest, cs)
      else .ok ([], cs.drop 1)

end

/-- Enough fuel for a text: every level of brackets and every item takes a character. -/
def fuelFor (cs : List Char) : Nat := 2 * cs.length + 2

/-- Brackets may be nested 127 levels deep. -/
def depthLimit : Nat := 128

def value : Reader Json := fun cs => valueWith .kept (fuelFor cs) depthLimit cs

/-- Pass over a value. -/
def skipValue (cs : List Char) : Except Fault (List Char) :=
  (valueWith .passedOver (fuelFor cs) 0 cs).map (·.2)

/-- Nothing but blanks may follow. -/
def finish {α : Type} (r : α × List Char) : Except Fault α :=
  if (skipBlank r.2).isEmpty then .ok r.1 else .error .malformed

/-- The fault of a value of another kind than the one asked for: its own, if it is not even a
value. A bracket is enough to see that the kind is wrong. -/
def unfit {α : Type} (cs : List Char) : Except Fault α :=
  match cs with
  | [] => .error .truncated
  | c :: _ =>
      if c = '[' ∨ c = '\x7b' then .error .unfit
      else match value cs with
        | .error fault => .error fault
        | .ok _ => .error .unfit

def text : Reader String := fun cs =>
  match skipBlank cs with
  | '"' :: cs => stringRest .kept "" cs
  | cs => unfit cs

def flag : Reader Bool := fun cs =>
  match skipBlank cs with
  | 't' :: cs => do .ok (true, ← word ['r', 'u', 'e'] cs)
  | 'f' :: cs => do .ok (false, ← word ['a', 'l', 's', 'e'] cs)
  | cs => unfit cs

/-- An integer of 64 bits without a sign. -/
def count : Reader Nat := fun cs =>
  match skipBlank cs with
  | '-' :: cs => do
      let _ ← number .kept true cs
      .error .unfit
  | c :: cs =>
      if isDigit c then do
        match ← number .kept false (c :: cs) with
        | (.int (.ofNat n), cs) => .ok (n, cs)
        | _ => .error .unfit
      else unfit (c :: cs)
  | [] => .error .truncated

/-- The fields of an object. -/
def fields : Reader Fields := fun cs =>
  match skipBlank cs with
  | '\x7b' :: cs => fieldsWith .kept (fuelFor cs) (depthLimit - 1) true cs
  | cs => unfit cs

end Reader

/-- Read a text that holds one value. -/
def parse (text : String) : Except Fault Json := do Reader.finish (← Reader.value text.toList)

/-- Read a text that holds one object. -/
def parseFields (text : String) : Except Fault Fields := do
  Reader.finish (← Reader.fields text.toList)

end Stencil.Json
