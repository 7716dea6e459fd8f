import ArithVM.Proofs.Json.Reading
import ArithVM.Report.Data

/-!
# Decoding — what a reader learns from a report

A report as data is one line that a JSON reader takes for an object with the parts of the report as
its members, those that are missing left out.  So nothing of a report is lost but the source, of
which only the place of the label remains.
-/

namespace ArithVM

/-! ## Objects of optional parts -/

namespace Json

/-- The value is an object whose members are those of the parts that are there, in any order. -/
def Consists (json : Json) (parts : List (String × Option Json)) : Prop :=
  ∃ members, json = .object members ∧ (members.map Prod.fst).Nodup ∧
    ∀ name value, (name, value) ∈ members ↔ (name, some value) ∈ parts

variable {json : Json} {parts parts' : List (String × Option Json)}

theorem consists_present (h : (parts.map Prod.fst).Nodup) : (present parts).Consists parts := by
  refine ⟨_, rfl, ?_, ?_⟩
  · refine List.Nodup.sublist ?_ h
    induction parts with
    | nil => exact .slnil
    | cons part parts ih =>
      obtain ⟨name, value?⟩ := part
      have htail := ih (List.nodup_cons.1 h).2
      cases value? with
      | none => exact htail.cons name
      | some value => exact htail.cons_cons name
  · intro name value
    rw [List.mem_filterMap]
    constructor
    · rintro ⟨⟨name', value?⟩, hpart, heq⟩
      obtain ⟨value', rfl, heq⟩ := Option.map_eq_some_iff.1 heq
      cases heq
      exact hpart
    · intro hpart
      exact ⟨_, hpart, rfl⟩

theorem Consists.congr (h : json.Consists parts)
    (hparts : ∀ part, part ∈ parts ↔ part ∈ parts') : json.Consists parts' := by
  obtain ⟨members, heq, hnodup, hmembers⟩ := h
  exact ⟨members, heq, hnodup, fun name value => (hmembers name value).trans (hparts _)⟩

/-- What an object tells of the only part under some name. -/
theorem Consists.part_eq (h : json.Consists parts) (h' : json.Consists parts') (name : String)
    {part part' : Option Json} (hpart : ∀ value, (name, some value) ∈ parts ↔ some value = part)
    (hpart' : ∀ value, (name, some value) ∈ parts' ↔ some value = part') : part = part' := by
  obtain ⟨members, rfl, -, hmembers⟩ := h
  obtain ⟨members', heq, -, hmembers'⟩ := h'
  cases heq
  apply Option.ext
  intro value
  rw [eq_comm, ← hpart, ← hmembers, hmembers', hpart', eq_comm]

end Json

open Json

/-! ## Labels -/

/-- The value tells of a label where it is and what it says.  If the source is known it tells also
    the line and the column of its beginning. -/
def Label.DescribedBy (source? : Option String) (label : Label) (data : Json) : Prop :=
  data.Consists
    [("start", some (.number label.span.start)),
     ("end", some (.number label.span.stop)),
     ("message", some (.string label.message)),
     ("line", source?.map fun source =>
        .number ((LineTable.ofSource source).position label.span.start).line),
     ("col", source?.map fun source =>
        .number ((LineTable.ofSource source).position label.span.start).column)]

theorem Label.describedBy_toJson (source? : Option String) (label : Label) :
    label.DescribedBy source? (label.toJson source?) := by
  refine (Json.consists_present ?_).congr ?_
  · show ["col", "end", "line", "message", "start"].Nodup
    decide
  · intro part
    simp only [List.mem_cons, Option.map_map, Function.comp_def]
    tauto

theorem Label.eq_of_describedBy {source? source?' : Option String} {label label' : Label}
    {data : Json} (h : label.DescribedBy source? data) (h' : label'.DescribedBy source?' data) :
    label = label' := by
  have hstart : label.span.start = label'.span.start :=
    number.inj (Option.some.inj (h.part_eq h' "start" (by simp) (by simp)))
  have hstop : label.span.stop = label'.span.stop :=
    number.inj (Option.some.inj (h.part_eq h' "end" (by simp) (by simp)))
  have hmessage : label.message = label'.message :=
    string.inj (Option.some.inj (h.part_eq h' "message" (by simp) (by simp)))
  obtain ⟨⟨start, stop⟩, message⟩ := label
  obtain ⟨⟨start', stop'⟩, message'⟩ := label'
  dsimp only at hstart hstop hmessage
  rw [hstart, hstop, hmessage]

/-! ## Reports -/

/-- The value tells of a report everything but its source. -/
def Report.DescribedBy (r : Report) (data : Json) : Prop :=
  ∃ label?, Option.Rel (Label.DescribedBy r.source?) r.label? label? ∧
    data.Consists
      [("severity", some (.string "error")),
       ("message", some (.string r.message)),
       ("notes", some (.array (r.notes.map .string))),
       ("code", r.code?.map .string),
       ("line", r.line?.map .number),
       ("suggestion", r.suggestion?.map .string),
       ("label", label?)]

namespace Report

variable {r r' : Report}

theorem describedBy_toJson (r : Report) : r.DescribedBy r.toJson := by
  refine ⟨r.label?.map (Label.toJson r.source?), ?_, ?_⟩
  · cases r.label? with
    | none => exact .none
    | some label => exact .some (label.describedBy_toJson r.source?)
  · refine (Json.consists_present ?_).congr ?_
    · show ["code", "label", "line", "message", "notes", "severity", "suggestion"].Nodup
      decide
    · intro part
      simp only [List.mem_cons]
      tauto

/-- Reports with one description differ in their sources at most. -/
theorem eq_of_describedBy {data : Json} (h : r.DescribedBy data) (h' : r'.DescribedBy data) :
    { r with source? := none } = { r' with source? := none } := by
  obtain ⟨label?, hlabel, hdata⟩ := h
  obtain ⟨label?', hlabel', hdata'⟩ := h'
  have hstring : Function.Injective string := fun _ _ => string.inj
  have hnumber : Function.Injective number := fun _ _ => number.inj
  have hmessage : r.message = r'.message :=
    hstring (Option.some.inj (hdata.part_eq hdata' "message" (by simp) (by simp)))
  have hitems : r.notes.map string = r'.notes.map string :=
    array.inj (Option.some.inj (hdata.part_eq hdata' "notes" (by simp) (by simp)))
  have hnotes : r.notes = r'.notes := List.map_injective_iff.2 hstring hitems
  have hcode : r.code? = r'.code? :=
    Option.map_injective hstring (hdata.part_eq hdata' "code" (by simp) (by simp))
  have hline : r.line? = r'.line? :=
    Option.map_injective hnumber (hdata.part_eq hdata' "line" (by simp) (by simp))
  have hsuggestion : r.suggestion? = r'.suggestion? :=
    Option.map_injective hstring (hdata.part_eq hdata' "suggestion" (by simp) (by simp))
  have hparts : label? = label?' := hdata.part_eq hdata' "label" (by simp) (by simp)
  have hlabels : r.label? = r'.label? := by
    rw [hparts] at hlabel
    generalize r.label? = label at hlabel ⊢
    generalize r'.label? = label' at hlabel' ⊢
    cases hlabel with
    | none =>
      cases hlabel'
      rfl
    | some h =>
      cases hlabel' with
      | some h' => rw [Label.eq_of_describedBy h h']
  rw [hmessage, hnotes, hcode, hline, hsuggestion, hlabels]

/-- **Data tell of a report all but its source.**  A report as data is one line without a character
    below the blank.  A reader takes it for an object with exactly the parts of the report that are
    there; a label comes with line and column if there is a source, those of its beginning.  So
    reports with one text differ in their sources at most. -/
theorem read?_render_toJson (r : Report) :
    (∀ c ∈ r.toJson.render.toList, 0x20 ≤ c.toNat) ∧
      (∃ data, Json.read? r.toJson.render = some data ∧ r.DescribedBy data) ∧
      ∀ r' : Report, r'.toJson.render = r.toJson.render →
        { r' with source? := none } = { r with source? := none } := by
  refine ⟨printable_chars r.toJson, ⟨r.toJson, read?_render _, r.describedBy_toJson⟩, ?_⟩
  intro r' hrender
  have hjson : r'.toJson = r.toJson := by
    rw [← Option.some.injEq, ← read?_render, ← read?_render, hrender]
  apply eq_of_describedBy r'.describedBy_toJson
  rw [hjson]
  exact r.describedBy_toJson

/-- Two sources in which the label stands at one place. -/
theorem read?_render_of_two_sources :
    ∃ r r' : Report,
      r = { message := "\"\\\n", label? := some ⟨⟨2, 3⟩, "é\x01"⟩, source? := some "1\n+" } ∧
        r' = { message := "\"\\\n", label? := some ⟨⟨2, 3⟩, "é\x01"⟩, source? := some "2\n-" } ∧
        r.toJson.render =
          "\x7b\"label\":\x7b\"col\":1,\"end\":3,\"line\":2,\"message\":\"é\\u0001\",\"start\":2" ++
            "\x7d,\"message\":\"\\\"\\\\\\n\",\"notes\":[],\"severity\":\"error\"\x7d" ∧
        r'.toJson.render = r.toJson.render ∧
        { r' with source? := none } = { r with source? := none } := by
  have hrender :
      ({ message := "\"\\\n", label? := some ⟨⟨2, 3⟩, "é\x01"⟩, source? := some "2\n-" } :
          Report).toJson.render =
        ({ message := "\"\\\n", label? := some ⟨⟨2, 3⟩, "é\x01"⟩, source? := some "1\n+" } :
          Report).toJson.render := by
    decide +kernel
  exact ⟨_, _, rfl, rfl, by decide +kernel, hrender, (read?_render_toJson _).2.2 _ hrender⟩

end Report

end ArithVM
