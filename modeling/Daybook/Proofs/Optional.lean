import Daybook.Proofs.Directive
import Daybook.Proofs.Inference

/-!
# Optional — a field that is not there

A field that may be left out, and is, leaves no trace but its default. The
white space that was passed over for it would be passed over for whatever
comes next (`readBehind_blanks`), and the default goes behind the values
of the fields before it and in front of all others (`Pairs.Gains`). So a
schema answers as it does without the field.
-/

namespace Daybook

open Daybook.Text Daybook.Reading

/-! ## Values that are added -/

namespace Pairs

variable {α : Type}

/-- A name that is set is found in the first half, or goes to the second. -/
theorem put_append (xs ys : Pairs α) (name : String) (v : α) :
    put (xs ++ ys) name v =
      if name ∈ names xs then put xs name v ++ ys else xs ++ put ys name v := by
  induction xs with
  | nil => rfl
  | cons p xs ih =>
      by_cases hp : p.1 = name
      · simp [put, names, hp]
      · have hmem : name ∈ names (p :: xs) ↔ name ∈ names xs := by
          simp [names, Ne.symm hp]
        rw [List.cons_append, put, if_neg hp, ih, put, if_neg hp]
        simp only [hmem]
        split <;> rfl

/-- The second pairs are the first with some that are added: before those
stand only names of one list, behind them only names of another. -/
inductive Gains (added : Pairs α) (before after : List String) : Pairs α → Pairs α → Prop
  | between {xs ys : Pairs α} (left : ∀ n ∈ names xs, n ∈ before)
      (right : ∀ n ∈ names ys, n ∈ after) :
      Gains added before after (xs ++ ys) (xs ++ (added ++ ys))

variable {added us vs : Pairs α} {before after : List String}

theorem Gains.put (h : Gains added before after us vs) {name : String} (hadded : name ∉ names added)
    (hafter : name ∈ after) (v : α) :
    Gains added before after (us.put name v) (vs.put name v) := by
  obtain @⟨xs, ys, left, right⟩ := h
  -- the name is set before what is added, or behind it, but never there
  rw [put_append, put_append]
  by_cases hxs : name ∈ names xs
  · rw [if_pos hxs, if_pos hxs]
    refine .between (fun n hn => ?_) right
    rw [names_put, if_pos hxs] at hn
    exact left n hn
  · rw [if_neg hxs, if_neg hxs, put_append, if_neg hadded]
    refine .between left fun n hn => ?_
    rcases mem_names_put.1 hn with rfl | hn
    · exact hafter
    · exact right n hn

theorem Gains.get?_eq (h : Gains added before after us vs) {name : String}
    (hadded : name ∉ names added) : us.get? name = vs.get? name := by
  obtain @⟨xs, ys, left, right⟩ := h
  have hnone : added.find? (fun p => p.1 = name) = none := by
    rw [List.find?_eq_none]
    intro p hp hname
    exact hadded (List.mem_map.2 ⟨p, hp, by simpa using hname⟩)
  rw [get?, get?, List.find?_append, List.find?_append, List.find?_append, hnone, Option.none_or]

theorem Gains.without (h : Gains added before after us vs) {left : List String}
    (hadded : ∀ n ∈ names added, n ∉ left) :
    Gains added before after (us.without left) (vs.without left) := by
  obtain @⟨xs, ys, hleft, hright⟩ := h
  have hsub : ∀ (ps : Pairs α), ∀ n ∈ names (ps.without left), n ∈ names ps := fun ps n hn => by
    obtain ⟨p, hp, rfl⟩ := List.mem_map.1 hn
    exact List.mem_map.2 ⟨p, List.mem_of_mem_filter hp, rfl⟩
  have hkept : added.without left = added := by
    rw [Pairs.without, List.filter_eq_self]
    intro p hp
    simpa using hadded p.1 (List.mem_map_of_mem hp)
  have hsplit : ∀ ps qs : Pairs α, (ps ++ qs).without left = ps.without left ++ qs.without left :=
    fun ps qs => List.filter_append ps qs
  rw [hsplit, hsplit, hsplit, hkept]
  exact .between (fun n hn => hleft n (hsub xs n hn)) fun n hn => hright n (hsub ys n hn)

end Pairs

/-! ## Answers side by side -/

namespace Reading

variable {α β γ δ : Type}

/-- Both answers are absence, or both are the same flaw, or both find
something of the same length, and what they find is related. -/
inductive Alike (R : α → β → Prop) : Reading α → Reading β → Prop
  | absent : Alike R .absent .absent
  | found {v : α} {w : β} (related : R v w) (n : Nat) : Alike R (.found v n) (.found w n)
  | broken (f : Flaw) : Alike R (.broken f) (.broken f)

variable {R : α → β → Prop} {S : γ → δ → Prop} {r : Reading α} {s : Reading β}

theorem alike_refl (r : Reading α) : Alike Eq r r := by
  cases r with
  | absent => exact .absent
  | found v n => exact .found rfl n
  | broken f => exact .broken f

theorem Alike.shift (h : Alike R r s) (n : Nat) : Alike R (r.shift n) (s.shift n) := by
  cases h with
  | absent => exact .absent
  | found related k => exact .found related (n + k)
  | broken f => exact .broken (f.shift n)

theorem Alike.map (h : Alike R r s) {f : α → γ} {g : β → δ} (hfg : ∀ v w, R v w → S (f v) (g w)) :
    Alike S (r.map f) (s.map g) := by
  cases h with
  | absent => exact .absent
  | found related n => exact .found (hfg _ _ related) n
  | broken e => exact .broken e

theorem Alike.andThen (h : Alike R r s) (cs : List Char) {f : α → Reader γ} {g : β → Reader δ}
    (hfg : ∀ v w ds, R v w → Alike S (f v ds) (g w ds)) :
    Alike S (r.andThen cs f) (s.andThen cs g) := by
  cases h with
  | absent => exact .absent
  | found related n => exact (hfg _ _ _ related).shift n
  | broken e => exact .broken e

/-- Going on behind a shifted answer. -/
theorem andThen_shift (r : Reading α) (cs : List Char) (next : α → Reader γ) (m : Nat) :
    (r.shift m).andThen cs next = (r.andThen (cs.drop m) next).shift m := by
  cases r with
  | absent => rfl
  | broken f => rfl
  | found v k =>
      rw [shift_found, Reading.andThen, Reading.andThen, List.drop_drop, shift_shift]

theorem andThen_assoc (r : Reading α) (cs : List Char) (f : α → Reader γ) (g : γ → Reader δ) :
    (r.andThen cs f).andThen cs g = r.andThen cs fun v ds => (f v ds).andThen ds g := by
  cases r with
  | absent => rfl
  | broken e => rfl
  | found v k => exact andThen_shift (f v (cs.drop k)) cs g k

end Reading

/-! ## White space that is passed over -/

namespace Token

theorem marks_blanks (cs : List Char) :
    marks cs = match marks (cs.drop (inlineBlanks cs)) with
      | ([], _) => ([], 0)
      | (ms, n) => (ms, inlineBlanks cs + n) := by
  rw [marks_eq cs, marks_eq (cs.drop (inlineBlanks cs)), inlineBlanks_drop, List.drop_zero]
  cases mark? (cs.drop (inlineBlanks cs)) with
  | none => rfl
  | some answer =>
      obtain ⟨m, n⟩ := answer
      simp only [Nat.zero_add, List.drop_drop, Nat.add_assoc]

/-- White space before a comment is none of it. -/
theorem commentStart_blanks (cs : List Char) :
    commentStart cs = (commentStart (cs.drop (inlineBlanks cs))).map (inlineBlanks cs + ·) := by
  induction cs with
  | nil => rfl
  | cons c cs ih =>
      by_cases hc : isInlineBlank c = true
      · have hwidth : inlineBlanks (c :: cs) = inlineBlanks cs + 1 := by simp [inlineBlanks, hc]
        have hne : ∀ d, isInlineBlank d = false → c ≠ d := by
          rintro d hd rfl
          rw [hd] at hc
          cases hc
        have hsemi : ¬(c = ';' ∧ false = false) := fun h => hne ';' (by decide) h.1
        rw [hwidth, List.drop_succ_cons, commentStart, commentFrom, if_neg (hne '\n' (by decide)),
          if_neg (hne '"' (by decide)), if_neg hsemi]
        show (commentStart cs).map (· + 1) = _
        rw [ih, Option.map_map]
        congr 1
        funext n
        simp only [Function.comp_apply]
        omega
      · have hzero : inlineBlanks (c :: cs) = 0 := by simp [inlineBlanks, hc]
        simp [hzero]

end Token

namespace Field

/-! ## Fields in a row -/

variable {r : Registry}

theorem readAll_append (xs ys : List Field) (values : Pairs Value) (cs : List Char) :
    readAll r (xs ++ ys) values cs =
      (readAll r xs values cs).andThen cs fun vs rest => readAll r ys vs rest := by
  induction xs generalizing values cs with
  | nil => exact (shift_zero _).symm
  | cons f xs ih =>
      rw [List.cons_append, readAll_cons, readAll_cons]
      cases f.read r (cs.drop (inlineBlanks cs)) with
      | broken e => rfl
      | found v n => simp only [ih, andThen_shift]
      | absent =>
          simp only
          split
          · rfl
          · rw [ih, andThen_shift]

/-- White space before a field is passed over. -/
theorem readAll_blanks (f : Field) (fs : List Field) (values : Pairs Value) (cs : List Char) :
    (readAll r (f :: fs) values (cs.drop (inlineBlanks cs))).shift (inlineBlanks cs) =
      readAll r (f :: fs) values cs := by
  rw [readAll_cons, readAll_cons, inlineBlanks_drop, List.drop_zero]
  cases f.read r (cs.drop (inlineBlanks cs)) with
  | broken e => exact shift_shift (inlineBlanks cs) 0 (.broken e)
  | found v n => simp only [Nat.zero_add, List.drop_drop, shift_shift]
  | absent =>
      simp only
      split
      · rfl
      · rw [shift_zero]

/-- The names that are set are those of the fields. -/
theorem names_readAll (fs : List Field) (values : Pairs Value) (cs : List Char) :
    (readAll r fs values cs).Finds fun vs _ =>
      ∀ n ∈ vs.names, n ∈ values.names ∨ n ∈ fs.map (·.name) := by
  induction fs generalizing values cs with
  | nil => exact fun n hn => .inl hn
  | cons f fs ih =>
      have hput : ∀ us : Pairs Value, (∀ n ∈ us.names, n ∈ values.names ∨ n = f.name) →
          ∀ ds, (readAll r fs us ds).Finds fun vs _ =>
            ∀ n ∈ vs.names, n ∈ values.names ∨ n ∈ (f :: fs).map (·.name) := by
        intro us hus ds
        refine (ih us ds).mono fun vs _ hvs n hn => ?_
        rcases hvs n hn with h | h
        · rcases hus n h with h | rfl
          · exact .inl h
          · exact .inr List.mem_cons_self
        · exact .inr (List.mem_cons_of_mem _ h)
      refine readAll_cons_finds (fun v n _ => hput _ (fun n hn => ?_) _)
        fun _ _ => hput _ (fun n hn => ?_) _
      · exact (Pairs.mem_names_put.1 hn).symm
      · rw [orElse] at hn
        split at hn
        · exact .inl hn
        · exact (Pairs.mem_names_put.1 hn).symm

/-- Fields that are read behind added values are the same without them. -/
theorem readAll_gains {added : Pairs Value} {before after : List String} {fs : List Field}
    (hfs : ∀ f ∈ fs, f.name ∉ added.names ∧ f.name ∈ after) {us vs : Pairs Value}
    (h : Pairs.Gains added before after us vs) (cs : List Char) :
    Alike (Pairs.Gains added before after) (readAll r fs us cs) (readAll r fs vs cs) := by
  -- each field reads the same text on both sides, so only the values differ
  induction fs generalizing us vs cs with
  | nil => exact .found h 0
  | cons f fs ih =>
      obtain ⟨⟨hadded, hafter⟩, hfs⟩ := List.forall_mem_cons.1 hfs
      rw [readAll_cons, readAll_cons]
      cases f.read r (cs.drop (inlineBlanks cs)) with
      | broken e => exact .broken _
      | found v n => exact (ih hfs (h.put hadded hafter v) _).shift _
      | absent =>
          simp only
          split
          · exact .absent
          · refine (ih hfs ?_ _).shift _
            rw [orElse, orElse]
            split
            · exact h
            · exact h.put hadded hafter _

end Field

namespace Directive

/-! ## What comes behind fields -/

variable {r : Registry} {kind : String} {fs : List Field} {values : Pairs Value}

/-- White space before tags and links is passed over. -/
theorem addMarks_blanks (values : Pairs Value) (cs : List Char) :
    addMarks values (cs.drop (inlineBlanks cs)) = addMarks values cs := by
  rw [addMarks, addMarks, Token.marks_blanks cs, Token.commentStart_blanks cs]
  cases Token.marks (cs.drop (inlineBlanks cs)) with
  | mk ms n =>
      cases ms with
      | nil => rfl
      | cons m ms =>
          simp only
          cases Token.commentStart (cs.drop (inlineBlanks cs)) with
          | none => rfl
          | some start => simp

theorem afterFields_blanks (kind : String) (values : Pairs Value) (cs : List Char) :
    (afterFields kind values (cs.drop (inlineBlanks cs))).shift (inlineBlanks cs) =
      afterFields kind values cs := by
  have hline := lineLength_drop (inlineBlanks_le_lineAhead cs)
  simp only [afterFields, shift_shift, hline, List.drop_drop, addMarks_blanks]

/-- The fields that are still to be read, and what comes behind them. -/
def readBehind (r : Registry) (kind : String) (fs : List Field) (values : Pairs Value) :
    Reader Entry := fun cs => (Field.readAll r fs values cs).andThen cs (afterFields kind)

theorem readBehind_append (xs ys : List Field) (values : Pairs Value) (cs : List Char) :
    readBehind r kind (xs ++ ys) values cs =
      (Field.readAll r xs values cs).andThen cs (readBehind r kind ys) := by
  rw [readBehind, Field.readAll_append, andThen_assoc]
  rfl

theorem readBehind_nil (values : Pairs Value) (cs : List Char) :
    readBehind r kind [] values cs = afterFields kind values cs := shift_zero _

/-- **White space that was passed over** for one field need not be for the
next, or for what comes behind the fields. -/
theorem readBehind_blanks (fs : List Field) (values : Pairs Value) (cs : List Char) :
    (readBehind r kind fs values (cs.drop (inlineBlanks cs))).shift (inlineBlanks cs) =
      readBehind r kind fs values cs := by
  cases fs with
  | nil => rw [readBehind_nil, readBehind_nil, afterFields_blanks]
  | cons f fs => rw [readBehind, readBehind, ← andThen_shift, Field.readAll_blanks]

/-- A field that may be left out and is not there gives its default. -/
theorem readBehind_cons {f : Field} (hopt : f.required = false) {cs : List Char}
    (hmiss : f.read r (cs.drop (inlineBlanks cs)) = .absent) (fs : List Field)
    (values : Pairs Value) :
    readBehind r kind (f :: fs) values cs = readBehind r kind fs (f.orElse values) cs := by
  have hreq : ¬f.required = true := by simp [hopt]
  rw [← readBehind_blanks fs, readBehind, Field.readAll_cons, hmiss]
  simp only [if_neg hreq]
  rw [andThen_shift, readBehind]

/-! ## Entries -/

/-- The second entry is the first with fields that are added. -/
structure Gains (added : Pairs Value) (before after : List String) (e e' : Entry) : Prop where
  date_eq : e'.date = e.date
  metadata_eq : e'.metadata = e.metadata
  fields : ∃ kind us vs, e.detail = .plain kind us ∧ e'.detail = .plain kind vs ∧
    Pairs.Gains added before after us vs

/-- The names that tell an entry's own data, and its tags and links. -/
def ownNames : List String := reserved ++ ["tags", "links"]

section Entries

variable {added us vs : Pairs Value} {before after : List String}

theorem gains_addMarks (h : Pairs.Gains added before after us vs)
    (hown : ∀ n ∈ ownNames, n ∉ added.names) (htags : "tags" ∈ after) (hlinks : "links" ∈ after)
    (cs : List Char) : Pairs.Gains added before after (addMarks us cs) (addMarks vs cs) := by
  unfold addMarks
  split
  · exact h
  · split
    · exact (h.put (hown _ (by decide)) htags _).put (hown _ (by decide)) hlinks _
    · exact h

theorem gains_stamped (h : Pairs.Gains added before after us vs)
    (hown : ∀ n ∈ ownNames, n ∉ added.names) (kind : String) (metadata : Metadata) :
    Alike (Gains added before after) (stamped kind us metadata) (stamped kind vs metadata) := by
  have hdate : us.get? "date" = vs.get? "date" := h.get?_eq (hown _ (by decide))
  have hwithout : Pairs.Gains added before after (us.without reserved) (vs.without reserved) := by
    refine h.without fun n hn hr => ?_
    exact hown n (List.mem_append_left _ hr) hn
  rw [stamped, stamped, entryOf, entryOf, hdate]
  cases vs.get? "date" with
  | none => exact .found ⟨rfl, rfl, kind, _, _, rfl, rfl, hwithout⟩ 0
  | some v =>
      cases v with
      | scalar s =>
          cases s with
          | text d => exact .found ⟨rfl, rfl, kind, _, _, rfl, rfl, hwithout⟩ 0
          | _ => exact .broken .dateNotText
      | _ => exact .broken .dateNotText

theorem gains_afterFields (h : Pairs.Gains added before after us vs)
    (hown : ∀ n ∈ ownNames, n ∉ added.names) (htags : "tags" ∈ after) (hlinks : "links" ∈ after)
    (kind : String) (cs : List Char) :
    Alike (Gains added before after) (afterFields kind us cs) (afterFields kind vs cs) := by
  refine ((alike_refl _).andThen _ fun metadata metadata' _ hsame => ?_).shift _
  subst hsame
  exact gains_stamped (gains_addMarks h hown htags hlinks cs) hown kind metadata

theorem gains_readBehind (h : Pairs.Gains added before after us vs)
    (hown : ∀ n ∈ ownNames, n ∉ added.names) (htags : "tags" ∈ after) (hlinks : "links" ∈ after)
    {fs : List Field} (hfs : ∀ f ∈ fs, f.name ∉ added.names ∧ f.name ∈ after) (kind : String)
    (cs : List Char) :
    Alike (Gains added before after) (readBehind r kind fs us cs) (readBehind r kind fs vs cs) :=
  (Field.readAll_gains hfs h cs).andThen cs fun _ _ ds hvalues =>
    gains_afterFields hvalues hown htags hlinks kind ds

end Entries

/-- What the field adds when it is left out: its default, if it has one. -/
def added (f : Field) : Pairs Value := (f.fallback.map fun v => (f.name, v)).toList

theorem mem_names_added {f : Field} {n : String} (h : n ∈ (added f).names) : n = f.name := by
  rw [added] at h
  cases hf : f.fallback with
  | none => simp [hf, Pairs.names] at h
  | some v => simpa [hf, Pairs.names] using h

theorem gains_orElse {f : Field} {values : Pairs Value} {before : List String}
    (hvalues : ∀ n ∈ values.names, n ∈ before) (hf : f.name ∉ values.names)
    (after : List String) :
    Pairs.Gains (added f) before after values (f.orElse values) := by
  have hgains : Pairs.Gains (added f) before after (values ++ []) (values ++ (added f ++ [])) :=
    .between hvalues (by simp [Pairs.names])
  have hsame : values ++ (added f ++ []) = f.orElse values := by
    rw [List.append_nil, added, Field.orElse]
    cases f.fallback with
    | none => exact List.append_nil values
    | some v =>
        have hput := Pairs.put_append values [] f.name v
        rw [if_neg hf, List.append_nil] at hput
        exact hput.symm
  rwa [hsame, List.append_nil] at hgains

/-- Wherever the fields before it lead, the field is not there, or its
check refuses what is. -/
def Misses (r : Registry) (before : List Field) (f : Field) (cs : List Char) : Prop :=
  ∀ values n, Field.readAll r before [] cs = .found values n →
    f.read r ((cs.drop n).drop (inlineBlanks (cs.drop n))) = .absent

/-- **A field that is left out is transparent.** A schema whose field may be
left out, and is, answers at every place as the schema without that field:
both are absent there, both meet the same flaw, or both find an entry of
the same length. The entries are equal but for the default of the field,
if it has one, which stands behind the values of the fields before it and
in front of those behind it and of tags and links. -/
theorem read_optional {r : Registry} {kind : String} {before after : List Field} {f : Field}
    {c : Cursor} (hdistinct : ((before ++ f :: after).map (·.name)).Nodup)
    (hopt : f.required = false) (hname : f.name ∉ ownNames) (hmiss : Misses r before f c.rest) :
    Alike (Gains (added f) (before.map (·.name)) (after.map (·.name) ++ ["tags", "links"]))
      ((schema kind (before ++ after)).read r c)
      ((schema kind (before ++ f :: after)).read r c) := by
  have hown : ∀ n ∈ ownNames, n ∉ (added f).names := fun n hn h => hname (mem_names_added h ▸ hn)
  have hnodup := hdistinct
  rw [List.map_append, List.map_cons, List.nodup_append, List.nodup_cons] at hnodup
  obtain ⟨-, ⟨hbehind, -⟩, hdisjoint⟩ := hnodup
  have hfs : ∀ g ∈ after, g.name ∉ (added f).names ∧
      g.name ∈ after.map (·.name) ++ ["tags", "links"] := by
    intro g hg
    have hmem : g.name ∈ after.map (·.name) := List.mem_map_of_mem hg
    refine ⟨fun h => hbehind ?_, List.mem_append_left _ hmem⟩
    rwa [← mem_names_added h]
  have hread : Alike (Gains (added f) (before.map (·.name)) (after.map (·.name) ++
      ["tags", "links"])) (readBehind r kind (before ++ after) [] c.rest)
      (readBehind r kind (before ++ f :: after) [] c.rest) := by
    rw [readBehind_append, readBehind_append]
    have hnames := Field.names_readAll (r := r) before [] c.rest
    cases hr : Field.readAll r before [] c.rest with
    | absent => exact .absent
    | broken e => exact .broken e
    | found values n =>
        have hvalues : ∀ m ∈ values.names, m ∈ before.map (·.name) := fun m hm =>
          (hnames.of_eq hr m hm).resolve_left List.not_mem_nil
        have hfresh : f.name ∉ values.names := fun hm =>
          hdisjoint f.name (hvalues f.name hm) f.name List.mem_cons_self rfl
        -- behind the fields before it, the field only adds its default
        refine Alike.shift ?_ n
        rw [readBehind_cons hopt (hmiss values n hr)]
        exact gains_readBehind (gains_orElse hvalues hfresh _) hown (by simp) (by simp) hfs kind _
  refine hread.map fun e e' h => ⟨h.date_eq, ?_, h.fields⟩
  rw [Entry.locatedAt, Entry.locatedAt, h.metadata_eq]

/-- The fields of a budget before its period. -/
def budgetFields : List Field := Builtin.header "budget" ++ [Builtin.account, Builtin.amount]

/-- The period of a budget. -/
def period : Field :=
  { name := "period", type := "string", fallback := some (.text "monthly"),
    check := some (.own Builtin.isPeriod) }

/-- Where the period would stand, the line has a tag. -/
def budgetLine : Cursor := .start "books" "2024-01-01 budget Ab 1 USD \t#x ; c\n  k: 1\n".toList

/-- The tag is read as a word and refused, and is still there for the tags. -/
theorem read_optional_period :
    Builtin.budgetDirective = .schema "budget" (budgetFields ++ [period]) ∧
      ((budgetFields ++ period :: []).map (·.name)).Nodup ∧ period.required = false ∧
      period.name ∉ ownNames ∧
      Misses ⟨FieldReader.builtin, []⟩ budgetFields period budgetLine.rest ∧
      Alike (Gains [("period", .text "monthly")] ["date", "keyword", "account", "amount"]
          ["tags", "links"])
        ((schema "budget" (budgetFields ++ [])).read ⟨FieldReader.builtin, []⟩ budgetLine)
        ((schema "budget" (budgetFields ++ [period])).read ⟨FieldReader.builtin, []⟩
          budgetLine) := by
  have hdistinct : ((budgetFields ++ period :: []).map (·.name)).Nodup := by decide
  have hname : period.name ∉ ownNames := by decide
  have hread : Field.readAll ⟨FieldReader.builtin, []⟩ budgetFields [] budgetLine.rest = .found
      [("date", .text "2024-01-01"), ("keyword", .text "budget"), ("account", .text "Ab"),
        ("amount", .amount ⟨Numeral.toFloat ⟨false, ['1'], none⟩, "USD"⟩)] 26 := by
    with_unfolding_all rfl
  have hmiss : Misses ⟨FieldReader.builtin, []⟩ budgetFields period budgetLine.rest := by
    intro values n h
    rw [hread] at h
    cases h
    with_unfolding_all rfl
  exact ⟨rfl, hdistinct, rfl, hname, hmiss, read_optional hdistinct rfl hname hmiss⟩

end Directive

end Daybook
