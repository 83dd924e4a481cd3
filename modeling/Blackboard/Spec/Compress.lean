import Blackboard.Lib.Json
import Blackboard.Spec.Base

/-! `app.tools.compress`: what fits a summary into the prompt, and the time as the prompts have it. -/

namespace Blackboard.Tools

def MAX_SUMMARY_CHARS : ℕ := 6000
def MAX_STRING : ℕ := 300

def clip (text : String) (limit : ℕ) : String :=
  if text.length ≤ limit then text else String.ofList (text.toList.take (limit - 1) ++ ['…'])

/-- The date of a day counted from 1970-01-01, in the proleptic Gregorian calendar: its year, month
and day of the month. Years begin in March, and 400 of them make an era. -/
def civil (day : ℤ) : ℤ × ℤ × ℤ :=
  let z := day + 719468
  let dayOfEra := z % 146097
  let yearOfEra := (dayOfEra - dayOfEra / 1460 + dayOfEra / 36524 - dayOfEra / 146096) / 365
  let dayOfYear := dayOfEra - (365 * yearOfEra + yearOfEra / 4 - yearOfEra / 100)
  let month := (5 * dayOfYear + 2) / 153
  (yearOfEra + z / 146097 * 400 + (if month < 10 then 0 else 1), (if month < 10 then month + 3 else month - 9),
    dayOfYear - (153 * month + 2) / 5 + 1)

/-- Seconds since the epoch as an ISO timestamp, to the second. -/
def iso (ts : Time) : String :=
  let second := ⌊ts⌋
  let (year, month, day) := civil (second / 86400)
  let two (n : ℤ) := Numeral.padded 2 n.toNat
  String.ofList (Numeral.padded 4 year.toNat ++ '-' :: (two month ++ '-' :: (two day ++ 'T' ::
    (two (second % 86400 / 3600) ++ ':' :: (two (second % 3600 / 60) ++ ':' :: (two (second % 60) ++ ['Z']))))))

example : iso 1709214245.75 = "2024-02-29T13:44:05Z" := by decide +kernel

mutual

def clipStrings : Json → Json
  | .str s => .str (clip s MAX_STRING)
  | .arr xs => .arr (clipAll xs)
  | .obj ms => .obj (clipMembers ms)
  | v => v

def clipAll : List Json → List Json
  | [] => []
  | x :: xs => clipStrings x :: clipAll xs

def clipMembers : List (String × Json) → List (String × Json)
  | [] => []
  | (k, v) :: ms => (k, clipStrings v) :: clipMembers ms

end

/-- A step into a value. -/
inductive Step
  | key (k : String)
  | index (i : ℕ)
deriving DecidableEq, Repr

mutual

/-- Every list in a value and where it is. -/
def lists : Json → List (List Step × List Json)
  | .arr xs => ([], xs) :: listsAll 0 xs
  | .obj ms => listsMembers ms
  | _ => []

def listsAll : ℕ → List Json → List (List Step × List Json)
  | _, [] => []
  | i, x :: xs => (lists x).map (fun l => (.index i :: l.1, l.2)) ++ listsAll (i + 1) xs

def listsMembers : List (String × Json) → List (List Step × List Json)
  | [] => []
  | (k, v) :: ms => (lists v).map (fun l => (.key k :: l.1, l.2)) ++ listsMembers ms

end

/-- The value with the list at a path changed in place. -/
def modifyList : List Step → (List Json → List Json) → Json → Json
  | [], f, .arr xs => .arr (f xs)
  | .index i :: path, f, .arr xs => .arr (xs.modify i (modifyList path f))
  | .key k :: path, f, .obj ms => .obj (ms.map fun m => if m.1 = k then (k, modifyList path f m.2) else m)
  | _, _, v => v

/-- `max(candidates, key=...)`: the first of the largest. -/
def largest (size : List Step × List Json → ℕ) :
    List (List Step × List Json) → Option (List Step × List Json)
  | [] => none
  | c :: cs =>
    match largest size cs with
    | some d => some (if size c < size d then d else c)
    | none => some c

/-- One round of the loop, if a list has more than one item left. -/
def halve (out : Json) : Option Json :=
  (largest (fun l => (Json.arr l.2).dumps.length) ((lists out).filter fun l => 1 < l.2.length)).map fun l =>
    modifyList l.1 (fun xs => xs.take (max 1 (xs.length / 2))) out

/-- The `while` loop with a bound on its rounds, of which each takes an item out of a list. -/
def fit (maxChars : ℕ) : ℕ → Json → Bool → Json × Bool
  | 0, out, truncated => (out, truncated)
  | rounds + 1, out, truncated =>
    if out.dumps.length ≤ maxChars then (out, truncated)
    else
      match halve out with
      | none => (out, truncated)
      | some out => fit maxChars rounds out true

def items (v : Json) : ℕ := ((lists v).map fun l => l.2.length).sum

def bound (summary : Json) (maxChars : ℕ) : Json × Bool :=
  let (out, truncated) := fit maxChars (items (clipStrings summary)) (clipStrings summary) false
  match out, truncated with
  | .obj ms, true => (.obj (Json.assign ms "truncated" (.bool true)), true)
  | _, _ => (out, truncated)

end Blackboard.Tools
