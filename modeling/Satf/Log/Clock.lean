import Satf.Lib.Decimal
import Satf.Lib.Shell
import Mathlib.Data.Char
import Mathlib.Data.List.Lex

/-!
# The name of a run's directory

`log_init` names the directory of a run after the local time: Boost's default
text `YYYY-Mon-DD HH:MM:SS`, with the month as an English abbreviation, and
the space replaced by `_`.

Names are compared as texts, times field by field. The two orders agree on
everything but the month:

> `now_lt_iff`: a name is less than another if its time is earlier, where
> months of one year count by the alphabet.
-/

namespace Satf.Log

open Satf.Lib Satf.Lib.Shell

/-! ## Local times -/

inductive Month where
  | january | february | march | april | may | june
  | july | august | september | october | november | december
  deriving DecidableEq, Repr

/-- The abbreviation Boost prints. -/
def Month.name : Month → Text
  | .january => "Jan".toList
  | .february => "Feb".toList
  | .march => "Mar".toList
  | .april => "Apr".toList
  | .may => "May".toList
  | .june => "Jun".toList
  | .july => "Jul".toList
  | .august => "Aug".toList
  | .september => "Sep".toList
  | .october => "Oct".toList
  | .november => "Nov".toList
  | .december => "Dec".toList

/-- The place in the year. -/
def Month.number (m : Month) : Nat := m.ctorIdx + 1

/-- A reading of the local clock, to the second. -/
structure LocalTime where
  year : Fin 10000
  month : Month
  day : Fin 32
  hours : Fin 24
  minutes : Fin 60
  seconds : Fin 60
  deriving DecidableEq, Repr

/-- The reading with these numbers in its fields. -/
def LocalTime.of (year : Nat) (month : Month) (day hours minutes seconds : Nat) : LocalTime where
  year := Fin.ofNat 10000 year
  month := month
  day := Fin.ofNat 32 day
  hours := Fin.ofNat 24 hours
  minutes := Fin.ofNat 60 minutes
  seconds := Fin.ofNat 60 seconds

/-- Seconds since the start of the month, counted from a day zero. -/
def LocalTime.secondsInMonth (t : LocalTime) : Nat :=
  ((t.day.val * 24 + t.hours.val) * 60 + t.minutes.val) * 60 + t.seconds.val

/-- Earlier, at a resolution of one second. -/
def LocalTime.Before (s t : LocalTime) : Prop :=
  s.year < t.year ∨ s.year = t.year ∧
    (s.month.number < t.month.number ∨ s.month = t.month ∧ s.secondsInMonth < t.secondsInMonth)

/-! ## Names -/

/-- `lexical_cast<std::string>` of a local time. -/
def LocalTime.text (t : LocalTime) : Text :=
  padded 4 t.year ++ ('-' :: (t.month.name ++ ('-' :: (padded 2 t.day ++ (' ' ::
    (padded 2 t.hours ++ (':' :: (padded 2 t.minutes ++ (':' :: padded 2 t.seconds)))))))))

/-- `boost::replace_all(now, " ", "_")` -/
def replaceSpaces (t : Text) : Text := t.map fun c => if c = ' ' then '_' else c

/-- The string `now` of `log_init`: the run directory's name. -/
def now (t : LocalTime) : Text := replaceSpaces t.text

theorem Month.name_length (m : Month) : m.name.length = 3 := by cases m <;> rfl

theorem Month.name_inj {m n : Month} : m.name = n.name ↔ m = n := by
  cases m <;> cases n <;> decide

theorem replaceSpaces_of_not_mem {t : Text} (h : ' ' ∉ t) : replaceSpaces t = t := by
  have hid : ∀ c ∈ t, (if c = ' ' then '_' else c) = id c := by
    intro c hc
    rw [if_neg (fun heq : c = ' ' => h (heq ▸ hc))]
    rfl
  rw [replaceSpaces, List.map_congr_left hid, List.map_id]

theorem space_not_mem_padded (w n : Nat) : ' ' ∉ padded w n := by
  induction w generalizing n with
  | zero => exact List.not_mem_nil
  | succ w ih =>
    have hdigit : ∀ d < 10, ' ' ≠ Nat.digitChar d := by decide
    rw [padded, List.mem_append, List.mem_singleton]
    intro hmem
    rcases hmem with h | h
    · exact ih _ h
    · exact hdigit _ (Nat.mod_lt n (by omega)) h

/-- The name, field by field. -/
theorem now_eq (t : LocalTime) :
    now t = padded 4 t.year ++ ('-' :: (t.month.name ++ ('-' :: (padded 2 t.day ++ ('_' ::
      (padded 2 t.hours ++ (':' :: (padded 2 t.minutes ++ (':' :: padded 2 t.seconds))))))))) := by
  have happ : ∀ a b : Text, replaceSpaces (a ++ b) = replaceSpaces a ++ replaceSpaces b :=
    fun a b => List.map_append
  have hcons : ∀ c : Char, ∀ a : Text, c ≠ ' ' →
      replaceSpaces (c :: a) = c :: replaceSpaces a := by
    intro c a hc
    rw [replaceSpaces, List.map_cons, if_neg hc]
    rfl
  have hspace : ∀ a : Text, replaceSpaces (' ' :: a) = '_' :: replaceSpaces a := fun a => rfl
  have hpad : ∀ w n, replaceSpaces (padded w n) = padded w n :=
    fun w n => replaceSpaces_of_not_mem (space_not_mem_padded w n)
  have hmonth : replaceSpaces t.month.name = t.month.name := by
    cases t.month <;> rfl
  unfold now LocalTime.text
  rw [happ, hcons _ _ (by decide), happ, hcons _ _ (by decide), happ, hspace, happ,
    hcons _ _ (by decide), happ, hcons _ _ (by decide)]
  simp only [hpad, hmonth]

/-! ## Their order -/

theorem cons_lt_cons_self {c : Char} {a b : Text} : c :: a < c :: b ↔ a < b := by
  rw [List.cons_lt_cons_iff]
  simp

/-- **How names compare**: by the year, then by the alphabet on months, then
by the time in the month. -/
theorem now_lt_iff (s t : LocalTime) :
    now s < now t ↔ s.year < t.year ∨ s.year = t.year ∧
      (s.month.name < t.month.name ∨ s.month = t.month ∧ s.secondsInMonth < t.secondsInMonth) := by
  have hyear := s.year.isLt
  have hyear' := t.year.isLt
  have hday := s.day.isLt
  have hday' := t.day.isLt
  have hhours := s.hours.isLt
  have hhours' := t.hours.isLt
  have hminutes := s.minutes.isLt
  have hminutes' := t.minutes.isLt
  have hseconds := s.seconds.isLt
  have hseconds' := t.seconds.isLt
  have hmonths : s.month.name.length = t.month.name.length := by
    rw [Month.name_length, Month.name_length]
  -- field by field: the separators are the same in both names
  rw [now_eq, now_eq, append_lt_append_iff (by simp), cons_lt_cons_self,
    append_lt_append_iff hmonths, cons_lt_cons_self, append_lt_append_iff (by simp),
    cons_lt_cons_self, append_lt_append_iff (by simp), cons_lt_cons_self,
    append_lt_append_iff (by simp), cons_lt_cons_self,
    padded_lt_iff (by omega) (by omega), padded_inj (by omega) (by omega),
    padded_lt_iff (by omega) (by omega), padded_inj (by omega) (by omega),
    padded_lt_iff (by omega) (by omega), padded_inj (by omega) (by omega),
    padded_lt_iff (by omega) (by omega), padded_inj (by omega) (by omega),
    padded_lt_iff (by omega) (by omega), Month.name_inj]
  -- the fields from the day on compare like one number
  have hseconds : ((s.day.val < t.day.val ∨ s.day.val = t.day.val ∧
      (s.hours.val < t.hours.val ∨ s.hours.val = t.hours.val ∧
        (s.minutes.val < t.minutes.val ∨ s.minutes.val = t.minutes.val ∧
          s.seconds.val < t.seconds.val)))) ↔ s.secondsInMonth < t.secondsInMonth := by
    unfold LocalTime.secondsInMonth
    omega
  rw [hseconds, ← Fin.lt_def, Fin.val_inj]

/-- The time in the month determines the fields below the month. -/
theorem LocalTime.eq_of_secondsInMonth {s t : LocalTime} (hyear : s.year = t.year)
    (hmonth : s.month = t.month) (h : s.secondsInMonth = t.secondsInMonth) : s = t := by
  obtain ⟨year, month, day, hours, minutes, seconds⟩ := s
  obtain ⟨year', month', day', hours', minutes', seconds'⟩ := t
  simp only [secondsInMonth] at hyear hmonth h
  have hhours := hours.isLt
  have hminutes := minutes.isLt
  have hseconds := seconds.isLt
  have hhours' := hours'.isLt
  have hminutes' := minutes'.isLt
  have hseconds' := seconds'.isLt
  simp only [mk.injEq, Fin.ext_iff]
  exact ⟨by rw [hyear], hmonth, by omega, by omega, by omega, by omega⟩

/-- Different times, to the second, have different names. -/
theorem now_inj {s t : LocalTime} (h : now s = now t) : s = t := by
  have hst : ¬ now s < now t := by rw [h]; exact lt_irrefl _
  have hts : ¬ now t < now s := by rw [h]; exact lt_irrefl _
  rw [now_lt_iff] at hst hts
  have hyear : s.year = t.year := by omega
  have hname : s.month.name = t.month.name := by
    rcases lt_trichotomy s.month.name t.month.name with hlt | heq | hlt
    · exact absurd (.inr ⟨hyear, .inl hlt⟩) hst
    · exact heq
    · exact absurd (.inr ⟨hyear.symm, .inl hlt⟩) hts
  have hmonth := Month.name_inj.mp hname
  apply LocalTime.eq_of_secondsInMonth hyear hmonth
  rcases lt_trichotomy s.secondsInMonth t.secondsInMonth with hlt | heq | hlt
  · exact absurd (.inr ⟨hyear, .inr ⟨hmonth, hlt⟩⟩) hst
  · exact heq
  · exact absurd (.inr ⟨hyear.symm, .inr ⟨hmonth.symm, hlt⟩⟩) hts

/-- **When naming keeps the order**: between an earlier and a later time it
fails only within one year, when the earlier month comes later in the
alphabet. -/
theorem now_le_iff_of_before {s t : LocalTime} (h : s.Before t) :
    now s ≤ now t ↔ (s.year = t.year → s.month.name ≤ t.month.name) := by
  rw [← not_lt, now_lt_iff]
  rcases h with hyear | ⟨hyear, hmonth | ⟨hmonth, hseconds⟩⟩
  · constructor
    · intro _ heq
      omega
    · intro _ hafter
      rcases hafter with hlt | ⟨heq, -⟩
      · omega
      · omega
  · have hne : t.month ≠ s.month := fun heq => by rw [heq] at hmonth; omega
    have hirrefl : ¬ t.year < t.year := by omega
    simp only [hyear, hirrefl, false_or, true_and, hne, false_and, or_false, not_lt,
      forall_true_left]
  · constructor
    · intro _ _
      rw [hmonth]
    · intro _ hafter
      rcases hafter with hlt | ⟨-, hlt | ⟨-, hlt⟩⟩
      · omega
      · rw [hmonth] at hlt
        exact absurd hlt (lt_irrefl t.month.name)
      · omega

end Satf.Log
