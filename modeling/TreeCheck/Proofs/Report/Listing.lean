import Mathlib
import TreeCheck.Diagnostic

/-!
# The listing of diagnostics

Repetitions are recognised by a text, and the listing is a stable sort.  Together they list every report
of a file once, as it was first made, by place and then by the order of reporting.

* `Diagnostic.SameReport` — the same place, code and message;
* `Diagnostic.key_eq_iff` — within a file the key tells reports apart, whatever the messages contain,
  if the codes have no colon;
* `Diagnostics.Collects` — a list that holds the first of each report, in the order of reporting, with
  `collects_add` for one more report and `collects_ofReports` for a whole sequence;
* `Diagnostics.filter_sorted` — sorting leaves the reports at one place in their order;
* `Diagnostics.sorted_ofReports` — the listing of a sequence of reports.
-/

namespace TreeCheck

namespace Position

/-- Places are the same when neither comes before the other. -/
theorem eq_of_not_before {p q : Position} (hpq : p.before q = false) (hqp : q.before p = false) : p = q := by
  obtain ⟨l, c⟩ := p
  obtain ⟨m, d⟩ := q
  unfold before at hpq hqp
  grind

/-- A place that is not before another one is not before what the other one is not before. -/
theorem not_before_trans {p q r : Position} (hqp : q.before p = false) (hrq : r.before q = false) :
    r.before p = false := by
  unfold before at *
  grind

end Position

namespace Diagnostic

/-- Two diagnostics make the same report: about the same place, with the same code and message. -/
def SameReport (a b : Diagnostic) : Prop :=
  a.span.start = b.span.start ∧ a.code = b.code ∧ a.message = b.message

instance (a b : Diagnostic) : Decidable (a.SameReport b) :=
  inferInstanceAs (Decidable (_ ∧ _))

theorem SameReport.refl (a : Diagnostic) : a.SameReport a := ⟨rfl, rfl, rfl⟩

theorem SameReport.symm {a b : Diagnostic} (h : a.SameReport b) : b.SameReport a :=
  ⟨h.1.symm, h.2.1.symm, h.2.2.symm⟩

theorem SameReport.trans {a b c : Diagnostic} (h : a.SameReport b) (h' : b.SameReport c) : a.SameReport c :=
  ⟨h.1.trans h'.1, h.2.1.trans h'.2.1, h.2.2.trans h'.2.2⟩

/-! ### Keys -/

theorem colon_not_mem_repr (i : ℤ) : ':' ∉ i.repr.toList := by
  have hnat : ∀ n : ℕ, ':' ∉ n.repr.toList := by
    intro n hmem
    rw [Nat.repr_eq_ofList_toDigits, String.toList_ofList] at hmem
    have hdigit := Nat.isDigit_of_mem_toDigits (by decide) (by decide) hmem
    cases hdigit
  rw [Int.repr_eq_if]
  split
  · exact hnat _
  · simpa using hnat _

/-- A text without colons before a colon is read back. -/
theorem append_colon_inj {xs ys r s : List Char} (hx : ':' ∉ xs) (hy : ':' ∉ ys)
    (h : xs ++ ':' :: r = ys ++ ':' :: s) : xs = ys ∧ r = s := by
  induction xs generalizing ys with
  | nil =>
      cases ys with
      | nil => simpa using h
      | cons c cs =>
          obtain rfl : ':' = c := by simpa using congrArg List.head? h
          exact absurd (List.mem_cons_self) hy
  | cons b bs ih =>
      cases ys with
      | nil =>
          obtain rfl : b = ':' := by simpa using congrArg List.head? h
          exact absurd (List.mem_cons_self) hx
      | cons c cs =>
          obtain ⟨rfl, hrest⟩ := List.cons.inj h
          obtain ⟨rfl, rfl⟩ := ih (fun hmem => hx (.tail _ hmem)) (fun hmem => hy (.tail _ hmem)) hrest
          exact ⟨rfl, rfl⟩

/-- A key spells file, line, column, code and message with colons between. -/
theorem toList_key (d : Diagnostic) :
    d.key.toList = d.file.toList ++ ':' :: (d.span.start.line.repr.toList ++ ':' ::
      (d.span.start.column.repr.toList ++ ':' :: (d.code.id.toList ++ ':' :: d.message.toList))) := by
  rw [key]
  simp only [String.toList_append, List.append_assoc]
  rfl

/-- **The key tells reports of one file apart.**  A line, a column and a code end at the first colon
behind them; the message is all that is left, so it may contain anything. -/
theorem key_eq_iff {a b : Diagnostic} (hfile : a.file = b.file) (ha : ':' ∉ a.code.id.toList)
    (hb : ':' ∉ b.code.id.toList) : a.key = b.key ↔ a.SameReport b := by
  constructor
  · intro h
    have h := congrArg String.toList h
    rw [toList_key, toList_key, hfile] at h
    have h := (List.cons.inj (List.append_cancel_left h)).2
    obtain ⟨hline, h⟩ := append_colon_inj (colon_not_mem_repr _) (colon_not_mem_repr _) h
    obtain ⟨hcolumn, h⟩ := append_colon_inj (colon_not_mem_repr _) (colon_not_mem_repr _) h
    obtain ⟨hcode, hmessage⟩ := append_colon_inj ha hb h
    refine ⟨?_, ?_, String.toList_injective hmessage⟩
    · rw [Position.mk.injEq]
      exact ⟨Int.repr_inj.1 (String.toList_injective hline), Int.repr_inj.1 (String.toList_injective hcolumn)⟩
    · rw [Code.mk.injEq]
      exact String.toList_injective hcode
  · rintro ⟨hstart, hcode, hmessage⟩
    rw [key, key, hfile, hstart, hcode, hmessage]

end Diagnostic

namespace Diagnostics

/-! ### Reports in turn -/

def ofReports (ds : List Diagnostic) : Diagnostics := ds.foldl add {}

/-- Where a report is made first in a sequence. -/
def firstAt (ds : List Diagnostic) (d : Diagnostic) : ℕ := ds.findIdx fun e => decide (e.SameReport d)

/-- The list holds the first diagnostic of each report of the sequence, and these in the order of the
sequence. -/
structure Collects (ds out : List Diagnostic) : Prop where
  mem_iff : ∀ d, d ∈ out ↔ ds[firstAt ds d]? = some d
  order : out.Pairwise fun a b => firstAt ds a < firstAt ds b

variable {ds out : List Diagnostic}

theorem firstAt_lt_length {d : Diagnostic} : firstAt ds d < ds.length ↔ ∃ e ∈ ds, e.SameReport d := by
  simp [firstAt]

theorem firstAt_congr {d e : Diagnostic} (h : d.SameReport e) : firstAt ds d = firstAt ds e := by
  have hiff : ∀ c : Diagnostic, c.SameReport d ↔ c.SameReport e :=
    fun c => ⟨fun hc => hc.trans h, fun hc => hc.trans h.symm⟩
  simp only [firstAt, hiff]

/-- The first diagnostic of a report makes that report. -/
theorem sameReport_of_firstAt {d e : Diagnostic} (h : ds[firstAt ds d]? = some e) : e.SameReport d := by
  obtain ⟨hlt, rfl⟩ := List.getElem?_eq_some_iff.1 h
  have hfound := @List.findIdx_getElem _ (fun e : Diagnostic => decide (e.SameReport d)) ds hlt
  exact of_decide_eq_true hfound

theorem firstAt_append_of_made {d e : Diagnostic} (h : ∃ c ∈ ds, c.SameReport d) :
    firstAt (ds ++ [e]) d = firstAt ds d := by
  have hlt := firstAt_lt_length.2 h
  rw [firstAt] at hlt
  rw [firstAt, List.findIdx_append, if_pos hlt, firstAt]

/-- A diagnostic of a new kind appears first where it is appended. -/
theorem firstAt_append_of_new {d e : Diagnostic} (h : ¬ ∃ c ∈ ds, c.SameReport d) :
    firstAt (ds ++ [e]) d = ds.length + if e.SameReport d then 0 else 1 := by
  rw [firstAt, List.findIdx_append, if_neg (by rwa [← firstAt, firstAt_lt_length]), List.findIdx_singleton]
  by_cases hsame : e.SameReport d <;> simp [hsame, Nat.add_comm]

namespace Collects

theorem mem (h : Collects ds out) {d : Diagnostic} (hd : d ∈ out) : d ∈ ds :=
  List.mem_of_getElem? ((h.mem_iff d).1 hd)

/-- Each report of the sequence is made in the list. -/
theorem exists_same (h : Collects ds out) {d : Diagnostic} (hd : d ∈ ds) : ∃ e ∈ out, e.SameReport d := by
  have hlt := firstAt_lt_length.2 ⟨d, hd, .refl d⟩
  have hsame : ds[firstAt ds d].SameReport d := sameReport_of_firstAt (List.getElem?_eq_getElem hlt)
  refine ⟨ds[firstAt ds d], (h.mem_iff _).2 ?_, hsame⟩
  rw [firstAt_congr hsame]
  exact List.getElem?_eq_getElem hlt

/-- No report is made twice. -/
theorem eq_of_same (h : Collects ds out) {d e : Diagnostic} (hd : d ∈ out) (he : e ∈ out)
    (hsame : d.SameReport e) : d = e := by
  have hd := (h.mem_iff d).1 hd
  rw [firstAt_congr hsame, (h.mem_iff e).1 he] at hd
  exact (Option.some.inj hd).symm

theorem nodup (h : Collects ds out) : out.Nodup :=
  h.order.imp fun hlt heq => by simp [heq] at hlt

/-- A report that was made before changes nothing. -/
theorem append_of_made (h : Collects ds out) {d : Diagnostic} (hmade : ∃ c ∈ ds, c.SameReport d) :
    Collects (ds ++ [d]) out := by
  have hfirst : ∀ e ∈ out, firstAt (ds ++ [d]) e = firstAt ds e :=
    fun e he => firstAt_append_of_made ⟨e, h.mem he, .refl e⟩
  refine ⟨fun e => ?_, h.order.imp_of_mem fun ha hb hlt => by rwa [hfirst _ ha, hfirst _ hb]⟩
  by_cases hmade' : ∃ c ∈ ds, c.SameReport e
  · rw [firstAt_append_of_made hmade', List.getElem?_append_left (firstAt_lt_length.2 hmade')]
    exact h.mem_iff e
  · -- the new diagnostic makes a known report, so it does not make this one
    have hne : ¬ d.SameReport e := fun hsame =>
      hmade' (hmade.imp fun c hc => ⟨hc.1, hc.2.trans hsame⟩)
    rw [firstAt_append_of_new hmade', if_neg hne, List.getElem?_eq_none (by simp)]
    exact iff_of_false (fun he => hmade' ⟨e, h.mem he, .refl e⟩) (by simp)

/-- A new report comes last. -/
theorem append_of_new (h : Collects ds out) {d : Diagnostic} (hnew : ¬ ∃ c ∈ ds, c.SameReport d) :
    Collects (ds ++ [d]) (out ++ [d]) := by
  have hfirst : ∀ e ∈ out, firstAt (ds ++ [d]) e = firstAt ds e :=
    fun e he => firstAt_append_of_made ⟨e, h.mem he, .refl e⟩
  have hlast : firstAt (ds ++ [d]) d = ds.length := by
    rw [firstAt_append_of_new hnew, if_pos (.refl d), Nat.add_zero]
  refine ⟨fun e => ?_, List.pairwise_append.2 ⟨?_, List.pairwise_singleton _ _, ?_⟩⟩
  · rw [List.mem_append, List.mem_singleton]
    by_cases hmade : ∃ c ∈ ds, c.SameReport e
    · have hne : e ≠ d := fun heq => hnew (heq ▸ hmade)
      rw [firstAt_append_of_made hmade, List.getElem?_append_left (firstAt_lt_length.2 hmade), h.mem_iff,
        or_iff_left hne]
    · have hout : e ∉ out := fun he => hmade ⟨e, h.mem he, .refl e⟩
      rw [or_iff_right hout, firstAt_append_of_new hmade]
      by_cases hsame : d.SameReport e
      · simp [hsame, eq_comm]
      · rw [if_neg hsame, List.getElem?_eq_none (by simp)]
        exact iff_of_false (fun heq => hsame (heq ▸ .refl e)) (by simp)
  · exact h.order.imp_of_mem fun ha hb hlt => by rwa [hfirst _ ha, hfirst _ hb]
  · intro e he b hb
    rw [List.mem_singleton.1 hb, hfirst e he, hlast]
    exact firstAt_lt_length.2 ⟨e, h.mem he, .refl e⟩

end Collects

/-- The file of the diagnostics, whose codes have no colon. -/
structure OfFile (file : String) (ds : List Diagnostic) : Prop where
  file : ∀ d ∈ ds, d.file = file
  codes : ∀ d ∈ ds, ':' ∉ d.code.id.toList

/-- One more report. -/
theorem collects_add {file : String} {l : Diagnostics} {d : Diagnostic} (hds : OfFile file (ds ++ [d]))
    (h : Collects ds l.items) : Collects (ds ++ [d]) (l.add d).items := by
  have hd : d ∈ ds ++ [d] := by simp
  have hkey : ∀ e ∈ l.items, e.key = d.key ↔ e.SameReport d := fun e he => by
    have hmem : e ∈ ds ++ [d] := List.mem_append_left _ (h.mem he)
    exact Diagnostic.key_eq_iff ((hds.file e hmem).trans (hds.file d hd).symm) (hds.codes e hmem) (hds.codes d hd)
  by_cases hmade : ∃ c ∈ ds, c.SameReport d
  · obtain ⟨c, hc, hcd⟩ := hmade
    obtain ⟨e, he, hec⟩ := h.exists_same hc
    have hany : l.items.any (fun e => e.key == d.key) = true :=
      List.any_eq_true.2 ⟨e, he, beq_iff_eq.2 ((hkey e he).2 (hec.trans hcd))⟩
    rw [add, if_pos hany]
    exact h.append_of_made ⟨c, hc, hcd⟩
  · have hany : ¬ l.items.any (fun e => e.key == d.key) = true := by
      rw [List.any_eq_true]
      rintro ⟨e, he, heq⟩
      exact hmade ⟨e, h.mem he, (hkey e he).1 (beq_iff_eq.1 heq)⟩
    rw [add, if_neg hany]
    exact h.append_of_new hmade

/-- A sequence of reports of one file leaves the first of each. -/
theorem collects_ofReports {file : String} (hds : OfFile file ds) : Collects ds (ofReports ds).items := by
  induction ds using List.reverseRecOn with
  | nil => exact ⟨by simp [ofReports], by simp [ofReports]⟩
  | append_singleton ds d ih =>
      rw [ofReports, List.foldl_append]
      refine collects_add hds (ih ⟨fun e he => ?_, fun e he => ?_⟩)
      · exact hds.file e (List.mem_append_left _ he)
      · exact hds.codes e (List.mem_append_left _ he)

/-! ### Sorting -/

/-- Not being listed before is transitive. -/
theorem not_precedes_trans (a b c : Diagnostic) (hab : (!b.precedes a) = true) (hbc : (!c.precedes b) = true) :
    (!c.precedes a) = true := by
  rw [Bool.not_eq_true'] at hab hbc ⊢
  unfold Diagnostic.precedes at hab hbc ⊢
  by_cases hfile : a.file = b.file
  · by_cases hfile' : b.file = c.file
    · rw [if_neg (by simp [hfile])] at hab
      rw [if_neg (by simp [hfile'])] at hbc
      rw [if_neg (by simp [hfile, hfile'])]
      exact Position.not_before_trans hab hbc
    · rw [if_pos (by simpa [eq_comm] using hfile')] at hbc
      rwa [if_pos (by simpa [hfile, eq_comm] using hfile'), hfile]
  · rw [if_pos (by simpa [eq_comm] using hfile)] at hab
    by_cases hfile' : b.file = c.file
    · rwa [if_pos (by simpa [hfile', eq_comm] using hfile), ← hfile']
    · rw [if_pos (by simpa [eq_comm] using hfile')] at hbc
      have hlt : a.file < b.file := lt_of_le_of_ne (not_lt.1 (by simpa using hab)) hfile
      have hlt' : b.file < c.file := lt_of_le_of_ne (not_lt.1 (by simpa using hbc)) hfile'
      have hac := hlt.trans hlt'
      rw [if_pos hac.ne']
      exact decide_eq_false (not_lt.2 hac.le)

/-- Of two diagnostics one is not listed before the other. -/
theorem not_precedes_total (a b : Diagnostic) : (!b.precedes a || !a.precedes b) = true := by
  rw [Bool.or_eq_true, Bool.not_eq_true', Bool.not_eq_true']
  unfold Diagnostic.precedes
  by_cases hfile : a.file = b.file
  · rw [if_neg (by simp [hfile]), if_neg (by simp [hfile])]
    by_cases hab : a.span.start.before b.span.start = true
    · exact Or.inl (Position.before_asymm hab)
    · exact Or.inr (by simpa using hab)
  · rw [if_pos (Ne.symm hfile), if_pos hfile, decide_eq_false_iff_not, decide_eq_false_iff_not, not_lt, not_lt]
    exact le_total _ _

section

variable {file : String} {l : Diagnostics}

theorem mem_sorted {d : Diagnostic} : d ∈ l.sorted ↔ d ∈ l.items := (List.mergeSort_perm _ _).mem_iff

theorem precedes_of_file {a b : Diagnostic} (hfile : a.file = b.file) :
    a.precedes b = a.span.start.before b.span.start := by
  rw [Diagnostic.precedes, if_neg (by simp [hfile])]

/-- The listing of one file goes by place. -/
theorem sorted_pairwise (hfile : ∀ d ∈ l.items, d.file = file) :
    l.sorted.Pairwise fun a b => b.span.start.before a.span.start = false := by
  refine (List.pairwise_mergeSort not_precedes_trans not_precedes_total l.items).imp_of_mem ?_
  intro a b ha hb hab
  have hab' : b.file = a.file := (hfile b (mem_sorted.1 hb)).trans (hfile a (mem_sorted.1 ha)).symm
  rw [Bool.not_eq_true', precedes_of_file hab'] at hab
  exact hab

/-- **Sorting is stable.**  The reports at one place stay in the order in which they were made. -/
theorem filter_sorted (hfile : ∀ d ∈ l.items, d.file = file) (p : Position) :
    l.sorted.filter (·.span.start = p) = l.items.filter (·.span.start = p) := by
  have hplace : ∀ d ∈ l.items.filter (·.span.start = p), d.span.start = p ∧ d.file = file := fun d hd => by
    obtain ⟨hmem, hd⟩ := List.mem_filter.1 hd
    exact ⟨of_decide_eq_true hd, hfile d hmem⟩
  have hpairwise : (l.items.filter (·.span.start = p)).Pairwise fun a b => (!b.precedes a) = true := by
    refine List.pairwise_of_forall_mem_list fun a ha b hb => ?_
    obtain ⟨hpa, hfa⟩ := hplace a ha
    obtain ⟨hpb, hfb⟩ := hplace b hb
    rw [precedes_of_file (hfb.trans hfa.symm), hpa, hpb, Position.before_irrefl]
    rfl
  have hsub : (l.items.filter (·.span.start = p)).Sublist l.sorted :=
    List.sublist_mergeSort not_precedes_trans not_precedes_total hpairwise List.filter_sublist
  have hsub := hsub.filter (·.span.start = p)
  rw [List.filter_filter] at hsub
  simp only [Bool.and_self] at hsub
  exact (hsub.eq_of_length ((List.mergeSort_perm _ _).filter _).length_eq.symm).symm

end

/-- **The listing of a sequence of reports of one file.**  It holds exactly the diagnostics that make a
report first, one for each report that was made, by line and column; reports at one place stand in the
order in which they were first made. -/
theorem sorted_ofReports {file : String} {ds : List Diagnostic} (hfile : ∀ d ∈ ds, d.file = file)
    (hcodes : ∀ d ∈ ds, ':' ∉ d.code.id.toList) :
    (∀ d, d ∈ (ofReports ds).sorted ↔ ds[firstAt ds d]? = some d) ∧
      (∀ d ∈ ds, ∃! e, e ∈ (ofReports ds).sorted ∧ e.SameReport d) ∧
      (ofReports ds).sorted.Pairwise fun a b =>
        a.span.start.line < b.span.start.line ∨
          a.span.start.line = b.span.start.line ∧ a.span.start.column < b.span.start.column ∨
          a.span.start = b.span.start ∧ firstAt ds a < firstAt ds b := by
  have h : Collects ds (ofReports ds).items := collects_ofReports ⟨hfile, hcodes⟩
  have hfile' : ∀ d ∈ (ofReports ds).items, d.file = file := fun d hd => hfile d (h.mem hd)
  refine ⟨fun d => mem_sorted.trans (h.mem_iff d), fun d hd => ?_, List.pairwise_iff_forall_sublist.2 ?_⟩
  · obtain ⟨e, he, hsame⟩ := h.exists_same hd
    refine ⟨e, ⟨mem_sorted.2 he, hsame⟩, fun c hc => ?_⟩
    exact h.eq_of_same (mem_sorted.1 hc.1) he (hc.2.trans hsame.symm)
  · intro a b hab
    have hnot := List.pairwise_iff_forall_sublist.1 (sorted_pairwise hfile') hab
    by_cases hbefore : a.span.start.before b.span.start = true
    · unfold Position.before at hbefore
      grind
    · -- at one place the listing is the collection, which keeps the order
      have hstart := Position.eq_of_not_before (by simpa using hbefore) hnot
      have hsub := hab.filter (·.span.start = b.span.start)
      rw [filter_sorted hfile'] at hsub
      simp only [hstart, decide_true, List.filter_cons_of_pos, List.filter_nil] at hsub
      have hlt := List.pairwise_iff_forall_sublist.1 h.order (hsub.trans List.filter_sublist)
      exact Or.inr (Or.inr ⟨hstart, hlt⟩)

/-- An error of a checked file. -/
def reportAt (line column : ℤ) (code message : String) : Diagnostic :=
  { code := ⟨code⟩, span := .point line column, file := "a.yaml", message }

/-- A message that reads like a place and a code, a report that is made twice, and a place that was passed. -/
def mixedReports : List Diagnostic :=
  [reportAt 2 1 "T001" "7:A002:x", reportAt 2 1 "A002" "x", reportAt 1 9 "A002" "x",
    { reportAt 2 1 "T001" "7:A002:x" with severity := .warning }]

/-- The repeated report is listed as it was first made, and the earliest place comes first. -/
theorem sorted_mixedReports :
    (∀ d ∈ mixedReports, d.file = "a.yaml") ∧ (∀ d ∈ mixedReports, ':' ∉ d.code.id.toList) ∧
      (∀ d ∈ mixedReports.take 3, d ∈ (ofReports mixedReports).sorted) ∧
      { reportAt 2 1 "T001" "7:A002:x" with severity := .warning } ∉ (ofReports mixedReports).sorted ∧
      ¬ [reportAt 2 1 "T001" "7:A002:x", reportAt 1 9 "A002" "x"].Sublist (ofReports mixedReports).sorted := by
  have hfile : ∀ d ∈ mixedReports, d.file = "a.yaml" := by decide
  have hcodes : ∀ d ∈ mixedReports, ':' ∉ d.code.id.toList := by decide
  have hfirst : ∀ d ∈ mixedReports.take 3, mixedReports[firstAt mixedReports d]? = some d := by decide
  obtain ⟨hmem, -, hpairwise⟩ := sorted_ofReports hfile hcodes
  refine ⟨hfile, hcodes, fun d hd => (hmem d).2 (hfirst d hd), ?_, fun hsub => ?_⟩
  · rw [hmem]
    decide
  · have hlt := List.pairwise_iff_forall_sublist.1 hpairwise hsub
    revert hlt
    decide

end Diagnostics

end TreeCheck
