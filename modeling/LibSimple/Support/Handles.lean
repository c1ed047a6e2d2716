import Mathlib.Data.List.Basic

/-!
# A ledger of open handles

Handles that an operating system gives out and takes back may be given out
again, so a ledger tells them apart by the number of the call that made them.
It holds what one thread has open.  What other threads do changes only which
handles are given out.
-/

namespace Handles

/-- `opened` is the table of open handles with the number of the call that made
each, and `closes` has for each close what it closed, `none` when the handle was
not open. -/
structure Ledger (Handle : Type*) where
  opened : List (Handle × ℕ)
  created : ℕ
  closes : List (Option ℕ)
  deriving DecidableEq

variable {Handle : Type*}

/-- Nothing has been opened yet. -/
def Ledger.start : Ledger Handle := ⟨[], 0, []⟩

def Ledger.create (d : Ledger Handle) (x : Handle) : Ledger Handle :=
  { d with opened := (x, d.created) :: d.opened, created := d.created + 1 }

def Ledger.close [DecidableEq Handle] (d : Ledger Handle) (x : Handle) : Ledger Handle :=
  { d with opened := d.opened.filter (·.1 ≠ x), closes := d.closes ++ [d.opened.lookup x] }

/-- The open handle `x` is what call `id` made. -/
def Ledger.Holds [DecidableEq Handle] (d : Ledger Handle) (x : Handle) (id : ℕ) : Prop :=
  d.opened.lookup x = some id

/-- Nothing is open, and what each call made has been closed once. -/
structure Ledger.Spent (d : Ledger Handle) : Prop where
  opened : d.opened = []
  closes : ∀ id, d.closes.count (some id) = if id < d.created then 1 else 0

variable {d : Ledger Handle} {x : Handle} {id : ℕ}

theorem Ledger.Spent.start : (Ledger.start : Ledger Handle).Spent :=
  ⟨rfl, fun _ => rfl⟩

variable [DecidableEq Handle]

theorem Ledger.Spent.not_holds (h : d.Spent) : ¬ d.Holds x id := by
  rw [Ledger.Holds, h.opened, List.lookup_nil]
  exact nofun

theorem Ledger.closes_create_close :
    ((d.create x).close x).closes = d.closes ++ [some d.created] := by
  rw [Ledger.close, Ledger.create, List.lookup_cons_self]

/-- A handle is made and closed. -/
theorem Ledger.Spent.create_close (h : d.Spent) : ((d.create x).close x).Spent := by
  refine ⟨by simp [Ledger.create, Ledger.close, h.opened], fun id => ?_⟩
  have hcount : (d.closes ++ [some d.created]).count (some id) =
      if id < d.created + 1 then 1 else 0 := by
    rw [List.count_append, h.closes id, List.count_singleton]
    by_cases hid : d.created = id
    · subst hid
      simp
    · have hne : (some d.created == some id) = false := by simpa using hid
      rw [hne, if_neg Bool.false_ne_true]
      split_ifs <;> omega
  rw [Ledger.closes_create_close]
  exact hcount

/-- A handle that is closed although it is not open. -/
theorem Ledger.Spent.close_eq (h : d.Spent) :
    d.close x = { d with closes := d.closes ++ [none] } := by
  simp [Ledger.close, h.opened]

theorem Ledger.Spent.close (h : d.Spent) : (d.close x).Spent := by
  rw [h.close_eq]
  refine ⟨h.opened, fun id => ?_⟩
  rw [List.count_append, h.closes id]
  rfl

theorem Ledger.mem_closes_close {c : Option ℕ} (h : c ∈ d.closes) : c ∈ (d.close x).closes :=
  List.mem_append_left _ h

end Handles
