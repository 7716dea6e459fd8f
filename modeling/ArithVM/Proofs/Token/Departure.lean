import ArithVM.Proofs.Token.Munch

/-!
# Departures — a token does not depend on what follows a separator

A token ends where its text cannot go on.  If something else is put behind it that begins with a
separator, or that agrees with what was there up to a separator, the text cannot go on either, and
the same token is taken off the front.  Only a string that nothing closes takes in whatever comes.
-/

namespace ArithVM

/-! ## Departing texts -/

/-- No token goes on into the text: it is empty or begins with a separator. -/
def Apart (text : List Char) : Prop :=
  ∀ c ∈ text.head?, isSeparator c

/-- The second text is the first one up to its end or up to a separator. -/
def Departs (rest rest' : List Char) : Prop :=
  ∃ common more, common <+: rest ∧ rest' = common ++ more ∧ Apart more

namespace Departs

variable {rest rest' : List Char}

theorem behind (common rest : List Char) {more : List Char} (h : Apart more) :
    Departs (common ++ rest) (common ++ more) :=
  ⟨common, more, List.prefix_append common rest, rfl, h⟩

theorem append (h : Departs rest rest') (front : List Char) :
    Departs (front ++ rest) (front ++ rest') := by
  obtain ⟨common, more, hcommon, rfl, hmore⟩ := h
  refine ⟨front ++ common, more, ?_, (List.append_assoc ..).symm, hmore⟩
  exact (List.prefix_append_right_inj front).2 hcommon

/-- What the second text begins with before any separator, the first one begins with, too. -/
theorem isPrefix {text : List Char} (h : Departs rest rest')
    (htext : ∀ c ∈ text, isSeparator c = false) (hfront : text <+: rest') : text <+: rest := by
  obtain ⟨common, more, hcommon, rfl, hmore⟩ := h
  obtain ⟨tail, htail⟩ := hfront
  obtain ⟨common', rfl, -⟩ | ⟨text', rfl, hmore'⟩ := List.append_eq_append_iff.1 htail
  · exact (List.prefix_append text common').trans hcommon
  · cases text' with
    | nil => rwa [List.append_nil]
    | cons c text' =>
      have hc : isSeparator c = false := htext c (by simp)
      have hc' : isSeparator c = true := hmore c (by simp [hmore'])
      rw [hc] at hc'
      contradiction

end Departs

/-! ## The first lexeme -/

theorem isWordPart_of_isSeparator {c : Char} (h : isSeparator c) : isWordPart c = false := by
  simp only [isSeparator, Bool.or_eq_true, decide_eq_true_eq] at h
  rcases h with ((rfl | rfl) | rfl) | rfl <;> decide

theorem isSeparator_of_isWordPart {c : Char} (h : isWordPart c) : isSeparator c = false := by
  cases hc : isSeparator c with
  | false => rfl
  | true =>
    rw [isWordPart_of_isSeparator hc] at h
    contradiction

theorem isSeparator_of_isDigit {c : Char} (h : isDigit c) : isSeparator c = false :=
  isSeparator_of_isWordPart (by rw [isWordPart, h, Bool.or_true])

/-- A run of characters that no separator continues ends where it ended. -/
theorem takeWhile_of_departs {p : Char → Bool} (hp : ∀ c, p c → isSeparator c = false)
    {cs rest' : List Char} (h : Departs (cs.dropWhile p) rest') :
    (cs.takeWhile p ++ rest').takeWhile p = cs.takeWhile p ∧
      (cs.takeWhile p ++ rest').dropWhile p = rest' := by
  have htake : ∀ c ∈ cs.takeWhile p, p c := fun c hc => List.mem_takeWhile_imp hc
  cases rest' with
  | nil =>
    rw [List.append_nil]
    exact ⟨List.takeWhile_eq_self_iff.2 htake, List.dropWhile_eq_nil_iff.2 htake⟩
  | cons c rest' =>
    apply takeWhile_append_cons htake
    apply eq_false_of_ne_true
    intro hc
    -- The character would go on with the run, and stands behind it already.
    have hfront : [c] <+: c :: rest' := ⟨rest', rfl⟩
    obtain ⟨tail, htail⟩ := h.isPrefix (by simpa using hp c hc) hfront
    have hhead := List.head?_dropWhile_not p cs
    rw [← htail] at hhead
    simp [hc] at hhead

theorem Symbol.isSeparator_eq_false (s : Symbol) : ∀ c ∈ s.text.toList, isSeparator c = false := by
  have hall : s.text.toList.all fun c => !isSeparator c := by cases s <;> decide
  intro c hc
  simpa using List.all_eq_true.1 hall c hc

theorem Symbol.leading?_eq_none_of_departs {cs cs' : List Char} (h : Departs cs cs')
    (hnone : leading? cs = none) : leading? cs' = none := by
  apply List.find?_eq_none.2
  intro s hs hfront
  have hfront' := h.isPrefix s.isSeparator_eq_false (List.isPrefixOf_iff_prefix.1 hfront)
  exact List.find?_eq_none.1 hnone s hs (List.isPrefixOf_iff_prefix.2 hfront')

theorem Symbol.leading?_eq_some_of_departs {cs cs' : List Char} {s : Symbol} (h : Departs cs cs')
    (hsome : leading? cs = some s) (hfront : s.text.toList <+: cs') : leading? cs' = some s := by
  obtain ⟨-, longer, shorter, hall, hlonger⟩ := List.find?_eq_some_iff_append.1 hsome
  refine List.find?_eq_some_iff_append.2
    ⟨List.isPrefixOf_iff_prefix.2 hfront, longer, shorter, hall, ?_⟩
  intro s' hs'
  have hnot := hlonger s' hs'
  rw [Bool.not_eq_true', ← Bool.not_eq_true, List.isPrefixOf_iff_prefix] at hnot ⊢
  exact fun hfront' => hnot (h.isPrefix s'.isSeparator_eq_false hfront')

namespace Lexeme

variable {cs rest' : List Char}

theorem word_of_departs (h : Departs (word cs).rest rest') :
    word ((word cs).text ++ rest') = ⟨(word cs).kind, (word cs).text, rest'⟩ := by
  obtain ⟨htake, hdrop⟩ := takeWhile_of_departs (fun c => isSeparator_of_isWordPart) h
  simp only [word, htake, hdrop]

/-- The number at the front of a text, by whether a fraction follows the first digits. -/
theorem number_eq_of_fraction {d : Char} {tail : List Char} (hd : isDigit d)
    (hcs : cs.dropWhile isDigit = '.' :: d :: tail) :
    number cs = ⟨.number, cs.takeWhile isDigit ++ '.' :: (d :: tail).takeWhile isDigit,
      (d :: tail).dropWhile isDigit⟩ := by
  simp only [number, hcs, if_pos hd]

theorem number_eq_of_no_fraction
    (hcs : ∀ d tail, cs.dropWhile isDigit = '.' :: d :: tail → isDigit d = false) :
    number cs = ⟨.number, cs.takeWhile isDigit, cs.dropWhile isDigit⟩ := by
  unfold number
  split
  next d tail htail => rw [if_neg (by rw [hcs d tail htail]; decide), htail]
  next => rfl

theorem number_of_departs (h : Departs (number cs).rest rest') :
    number ((number cs).text ++ rest') = ⟨.number, (number cs).text, rest'⟩ := by
  have hdigit : ∀ c, isDigit c → isSeparator c = false := fun c => isSeparator_of_isDigit
  by_cases hfraction : ∃ d tail, cs.dropWhile isDigit = '.' :: d :: tail ∧ isDigit d
  · obtain ⟨d, tail, hcs, hd⟩ := hfraction
    rw [number_eq_of_fraction hd hcs] at h ⊢
    obtain ⟨htake, hdrop⟩ := takeWhile_of_departs hdigit h
    have hwhole : ∀ c ∈ cs.takeWhile isDigit, isDigit c := fun c hc => List.mem_takeWhile_imp hc
    obtain ⟨hwhole, hpoint⟩ := takeWhile_append_cons hwhole (show isDigit '.' = false from rfl)
      ((d :: tail).takeWhile isDigit ++ rest')
    rw [List.takeWhile_cons_of_pos hd, List.cons_append] at htake hdrop hwhole hpoint
    rw [List.takeWhile_cons_of_pos hd, List.append_assoc, List.cons_append, List.cons_append,
      number_eq_of_fraction hd hpoint, hwhole, htake, hdrop]
  · have hnone : ∀ d tail, cs.dropWhile isDigit = '.' :: d :: tail → isDigit d = false := by
      intro d tail hcs
      exact eq_false_of_ne_true fun hd => hfraction ⟨d, tail, hcs, hd⟩
    rw [number_eq_of_no_fraction hnone] at h ⊢
    obtain ⟨htake, hdrop⟩ := takeWhile_of_departs hdigit h
    rw [number_eq_of_no_fraction, htake, hdrop]
    -- A fraction behind the digits would have been there before.
    intro d tail hrest
    rw [hdrop] at hrest
    apply eq_false_of_ne_true
    intro hd
    have hfront : ['.', d] <+: rest' := ⟨tail, hrest.symm⟩
    have hinside : ∀ c ∈ ['.', d], isSeparator c = false := by
      rw [List.forall_mem_cons, List.forall_mem_singleton]
      exact ⟨rfl, hdigit d hd⟩
    obtain ⟨tail', htail'⟩ := h.isPrefix hinside hfront
    exact hfraction ⟨d, tail', htail'.symm, hd⟩

/-- A lexeme stays what it is if what follows departs from what followed, unless it is a string that
    nothing closes. -/
theorem first?_of_departs {lexeme : Lexeme} (h : first? (lexeme.text ++ lexeme.rest) = some lexeme)
    (hclosed : lexeme.kind ≠ .invalid .unterminatedString) (hrest : Departs lexeme.rest rest') :
    first? (lexeme.text ++ rest') = some { lexeme with rest := rest' } := by
  obtain ⟨c, cs, heq, hfirst⟩ := exists_first_of_first? h
  have hdeparts := hrest.append lexeme.text
  rw [heq] at hdeparts
  obtain ⟨tail, htext⟩ : ∃ tail, lexeme.text = c :: tail := by
    obtain ⟨d, tail, htext⟩ := List.exists_cons_of_ne_nil (first?_text_ne_nil h)
    rw [htext, List.cons_append, List.cons.injEq] at heq
    exact ⟨tail, by rw [htext, heq.1]⟩
  -- The text begins as before, so it is a matter of the branch that was taken then.
  cases hfirst with
  | word hc =>
    have hword := word_of_departs hrest
    rw [htext, List.cons_append] at hword ⊢
    rw [first?, if_pos hc, hword]
  | number hword hc =>
    have hnumber := number_of_departs hrest
    rw [htext, List.cons_append] at hnumber ⊢
    rw [first?, if_neg (by rw [hword]; decide), if_pos hc, hnumber, kind_number]
  | string hc =>
    by_cases hquote : '"' ∈ cs
    · obtain ⟨body, rest, rfl, hbody⟩ := List.eq_append_cons_of_mem hquote
      simp only [string_of_closed hbody]
      show some (string (body ++ ['"'] ++ rest')) = _
      rw [List.append_assoc, List.singleton_append, string_of_closed hbody]
    · rw [string_of_open hquote] at hclosed
      exact absurd rfl hclosed
  | @symbol s hs =>
    have hleading := Symbol.leading?_eq_some_of_departs hdeparts hs (List.prefix_append _ _)
    obtain ⟨hword, hdigit, hquote⟩ := s.begins (congrArg List.head? htext)
    have hdrop : (s.text.toList ++ rest').drop s.text.length = rest' := by
      rw [← String.length_toList, List.drop_left]
    dsimp only at htext hleading ⊢
    rw [htext, List.cons_append] at hleading hdrop ⊢
    simp [first?, hword, hdigit, hquote, hleading, hdrop, htext]
  | stray hword hdigit hquote hsymbol =>
    have hleading := Symbol.leading?_eq_none_of_departs hdeparts hsymbol
    simp only [List.singleton_append] at hleading ⊢
    simp [first?, hword, hdigit, hquote, hleading]

end Lexeme

end ArithVM
