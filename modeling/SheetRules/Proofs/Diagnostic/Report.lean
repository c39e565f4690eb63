import Mathlib.Tactic.Common
import SheetRules.Diagnostic.Basic

/-!
# What a report holds

A report counts every entry and keeps the first ones.  While it is not full, it holds exactly what
was added to it, in order.
-/

namespace SheetRules

namespace Report

variable {ε : Type}

/-- A report without errors counts none. -/
lemma hasErrors_eq_false {report : Report ε} : report.hasErrors = false ↔ report.total = 0 := by
  simp [hasErrors]

/-- A report that is not full counts fewer faults than its limit. -/
lemma isFull_eq_false {report : Report ε} : report.isFull = false ↔ report.total < limit := by
  simp [isFull]

/-- A report that counts none is not full. -/
lemma not_isFull_of_total_eq_zero {report : Report ε} (h : report.total = 0) :
    report.isFull = false := by
  simp [isFull, limit, h]

/-- An empty report counts none. -/
@[simp] lemma total_empty : (empty : Report ε).total = 0 := rfl

/-- Every entry is counted. -/
@[simp] lemma push_total (report : Report ε) (entry : ε) :
    (report.push entry).total = report.total + 1 := rfl

/-- An entry of the report after a push was there before, or it is the new one. -/
lemma mem_entries_push {report : Report ε} {entry other : ε}
    (h : other ∈ (report.push entry).entries) : other ∈ report.entries ∨ other = entry := by
  simp only [push] at h
  split at h
  · simpa using h
  · exact .inl h

/-- Adds several entries. -/
def pushAll (report : Report ε) (entries : List ε) : Report ε :=
  entries.foldl push report

/-- Nothing is pushed. -/
@[simp] lemma pushAll_nil (report : Report ε) : report.pushAll [] = report := rfl

/-- Entries are pushed one after the other. -/
lemma pushAll_cons (report : Report ε) (entry : ε) (entries : List ε) :
    report.pushAll (entry :: entries) = (report.push entry).pushAll entries := rfl

/-- Two lists of entries are pushed one after the other. -/
lemma pushAll_append (report : Report ε) (entries more : List ε) :
    report.pushAll (entries ++ more) = (report.pushAll entries).pushAll more :=
  List.foldl_append

/-- All entries that are pushed are counted. -/
@[simp] lemma total_pushAll (report : Report ε) (entries : List ε) :
    (report.pushAll entries).total = report.total + entries.length := by
  induction entries generalizing report with
  | nil => rfl
  | cons entry rest ih =>
    rw [pushAll_cons, ih, push_total, List.length_cons]
    omega

/-- While there is room, every entry that is added is kept. -/
lemma entries_pushAll {report : Report ε} {entries : List ε}
    (hall : report.entries.length = report.total) (hroom : report.total + entries.length ≤ limit) :
    (report.pushAll entries).entries = report.entries ++ entries := by
  induction entries generalizing report with
  | nil => simp
  | cons entry rest ih =>
    rw [List.length_cons] at hroom
    have hkept : (report.push entry).entries = report.entries ++ [entry] :=
      if_pos (by omega)
    rw [pushAll_cons, ih, hkept]
    · simp
    · simp [hkept, hall]
    · rw [push_total]
      omega

/-- A report that started empty and is not full holds all that was added to it. -/
lemma entries_pushAll_empty {entries : List ε} (hroom : entries.length < limit) :
    (empty.pushAll entries).entries = entries := by
  rw [entries_pushAll rfl]
  · rfl
  · rw [total_empty]
    omega

end Report

end SheetRules
