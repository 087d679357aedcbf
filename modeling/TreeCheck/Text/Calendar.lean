/-!
# Days of the calendar

* `Calendar.isLeap` — whether a year has a 29th of February;
* `Calendar.daysIn` — the number of days of a month.
-/

namespace TreeCheck.Text.Calendar

/-- Whether a year has a 29th of February. -/
def isLeap (year : Nat) : Bool := year % 4 == 0 && (year % 100 != 0 || year % 400 == 0)

/-- The number of days of a month; there is none outside a year. -/
def daysIn (year month : Nat) : Nat :=
  match month with
  | 2 => if isLeap year then 29 else 28
  | 4 | 6 | 9 | 11 => 30
  | m => if 1 ≤ m && m ≤ 12 then 31 else 0

def hasDay (year month day : Nat) : Bool := 1 ≤ day && day ≤ daysIn year month

end TreeCheck.Text.Calendar
