import Mathlib.Data.List.TakeWhile
import Mathlib.Tactic.Common

/-!
# Scan — the conversions of `scanf`, and `fgets`

The functions of the C library on the characters that are left of a stream or of a string.  They
give mathematical values; whether a value fits into its object is for the caller to say.
-/

namespace MiniOs
namespace Lib
namespace Scan

/-- `isspace` of the C locale. -/
def isSpace (c : Char) : Bool := c.toNat == 32 || (9 ≤ c.toNat && c.toNat ≤ 13)

/-- A directive that is white space. -/
def skipSpace (cs : List Char) : List Char := cs.dropWhile isSpace

/-- `%s`: the word and what is left, or `none` at the end of the input. -/
def scanWord (cs : List Char) : Option (List Char × List Char) :=
  match skipSpace cs with
  | [] => none
  | c :: cs => some ((c :: cs).takeWhile (!isSpace ·), (c :: cs).dropWhile (!isSpace ·))

/-- The sign in front of a number; it is read also where no number follows. -/
def scanSign : List Char → Int × List Char
  | '-' :: cs => (-1, cs)
  | '+' :: cs => (1, cs)
  | cs => (1, cs)

def digitsValue (ds : List Char) : Nat := ds.foldl (fun n d => 10 * n + (d.toNat - 48)) 0

/-- `%d` and `%u`: the number, if there is one, and what is left. -/
def scanInt (cs : List Char) : Option Int × List Char :=
  let (sign, cs) := scanSign (skipSpace cs)
  match cs.takeWhile Char.isDigit with
  | [] => (none, cs)
  | d :: ds => (some (sign * digitsValue (d :: ds)), cs.dropWhile Char.isDigit)

/-- `k` conversions of numbers; the first one that fails is the last. -/
def scanInts : Nat → List Char → List Int × List Char
  | 0, cs => ([], cs)
  | k + 1, cs =>
      match scanInt cs with
      | (none, cs) => ([], cs)
      | (some x, cs) => (x :: (scanInts k cs).1, (scanInts k cs).2)

/-- `fgets` with room for `n` characters: up to the end of the line, which it includes. -/
def fgets : Nat → List Char → List Char × List Char
  | 0, cs => ([], cs)
  | _ + 1, [] => ([], [])
  | n + 1, c :: cs => if c = '\n' then ([c], cs) else (c :: (fgets n cs).1, (fgets n cs).2)

/-- The string in an array: what is in front of the null character. -/
def cString (cs : List Char) : List Char := cs.takeWhile (·.toNat != 0)

theorem scanInts_nil (k : Nat) : scanInts k [] = ([], []) := by
  cases k <;> rfl

theorem scanInts_length_le (k : Nat) : ∀ cs, (scanInts k cs).1.length ≤ k := by
  induction k with
  | zero => exact fun _ => Nat.le_refl 0
  | succ k ih =>
      intro cs
      rw [scanInts]
      split
      · exact Nat.zero_le _
      · rename_i x cs' _
        exact Nat.succ_le_succ (ih cs')

theorem cString_eq {cs : List Char} (h : cs.all (·.toNat != 0)) : cString cs = cs :=
  List.takeWhile_eq_self_iff.2 (List.all_eq_true.1 h)

end Scan
end Lib
end MiniOs
