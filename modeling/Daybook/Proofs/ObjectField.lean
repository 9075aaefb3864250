import Daybook.Proofs.Coverage

/-!
# ObjectField — the line below an object

A field of type `object` takes a block of pairs and ends where the next
line starts (`Field.EndsBlock`). Its directive still passes over the rest
of the line, and that is now a line of its own. Where there are no
quotes, every other builtin type stays on its line, so a line at the
margin that holds no pair is lost exactly where an object ends.
-/

namespace Daybook

open Daybook.Text Daybook.Reading

/-! ## Texts without quotes -/

namespace Token

variable {cs : List Char}

theorem quoted_quoteless (h : '"' ∉ cs) : quoted cs = .absent :=
  quoted_eq_absent fun hq => h (List.mem_of_mem_head? hq)

/-- Without quotes, a string is a bare word and an item a bare item. -/
theorem quotedOr_quoteless {r : Reader String} {l : Lexeme}
    (heq : ∀ cs, r cs = if cs.head? = some '"' then quoted cs else l.read cs) (hl : OnLine l)
    (hb : l.Begins) (h : '"' ∉ cs) : (r cs).Finds fun _ n => n ≤ (lineAhead cs).length := by
  have hhead : cs.head? ≠ some '"' := fun hq => h (List.mem_of_mem_head? hq)
  rw [heq, if_neg hhead]
  exact finds_le_lineAhead (Lexeme.onLine_read hl) hb.finds_le cs

theorem string_quoteless (h : '"' ∉ cs) :
    (string cs).Finds fun _ n => n ≤ (lineAhead cs).length :=
  quotedOr_quoteless string_eq onLine_bareWord (Lexeme.begins_run _) h

theorem items_quoteless (h : '"' ∉ cs) :
    (items cs).Finds fun _ n => n ≤ (lineAhead cs).length := by
  have hitem : ∀ {ds : List Char} {s : String} {n : Nat}, '"' ∉ ds → item ds = .found s n →
      n ≤ (lineAhead ds).length := fun hd hs =>
    (quotedOr_quoteless item_eq onLine_bareItem (Lexeme.begins_headed _ _) hd).of_eq hs
  fun_induction items cs with
  | case1 cs => exact Nat.zero_le _
  | case2 => trivial
  | case3 cs s n hs => exact hitem h hs
  | case4 cs s n hs gap hgap ih =>
      have hfront := add_le_lineAhead (hitem h hs) (separator_le (cs.drop n))
      refine (finds_shift ..).2 ((finds_map ..).2 ?_)
      exact (ih fun hm => h (List.mem_of_mem_drop hm)).mono fun _ k hk =>
        add_le_lineAhead hfront hk

end Token

namespace Metadata

theorem pair_quoteless {cs : List Char} (h : '"' ∉ cs) :
    (pair cs).Finds fun _ n => n ≤ (lineAhead cs).length := by
  rw [pair_eq]
  split
  · trivial
  · next key n hk =>
    have hquote : (cs.drop n).head? ≠ some '"' := fun hq =>
      h (List.mem_of_mem_drop (List.mem_of_mem_head? hq))
    refine (finds_shift ..).2 ((finds_map ..).2 ?_)
    rw [value_eq, if_neg hquote]
    exact (unquoted_le_lineAhead _).mono fun _ _ hm => add_le_lineAhead (key?_le hk) hm

theorem pairsStay_of_quoteless {cs : List Char} (h : '"' ∉ cs) : PairsStay cs :=
  fun _ _ => pair_quoteless fun hm => h (List.mem_of_mem_drop (List.mem_of_mem_drop hm))

end Metadata

namespace Shape

/-- The shape stays on its line or is a block of pairs. -/
def Lined (s : Shape) : Prop := s.SingleLine ∨ s = .object

theorem read_quoteless {s : Shape} (hs : s.SingleLine) {cs : List Char} (h : '"' ∉ cs) :
    (s.read cs).Finds fun _ n => n ≤ (lineAhead cs).length := by
  rcases singleLine_cases hs with hs | rfl | rfl | rfl
  · exact read_le_lineAhead hs cs
  · exact (finds_map ..).2 (Token.string_quoteless h)
  · exact (finds_map ..).2 (Token.array_finds (Token.items_quoteless h))
  · exact (finds_map ..).2 (by rw [Token.quoted_quoteless h]; trivial)

end Shape

/-! ## Objects -/

/-- The text starts with white space, a semicolon or a key. -/
def Attached (cs : List Char) : Prop := Hung cs ∨ Metadata.key? cs ≠ none

theorem Metadata.pairs_attached {cs : List Char} (h : '"' ∉ cs) :
    (pairs 0 cs).Finds fun _ n => Throughout Attached cs 0 n := by
  refine pairs_throughout (fun _ => .inl) (fun ds _ hpair => ?_) (pairsStay_of_quoteless h)
  by_cases hw : 0 < indentWidth ds
  · exact .inl (hung_of_indent hw)
  · rw [Nat.eq_zero_of_not_pos hw, List.drop_zero] at hpair
    refine .inr fun hk => hpair ?_
    rw [pair_eq, hk]

theorem Metadata.block_attached {cs : List Char} (h : '"' ∉ cs) :
    (block 0 cs).Finds fun _ n => Throughout Attached cs 0 n := by
  rw [block_eq]
  split
  · trivial
  · exact (finds_map ..).2 (pairs_attached h)

theorem Metadata.pairs_pos (indent : Nat) (cs : List Char) :
    (pairs indent cs).Finds fun ps n => ps ≠ [] → 0 < n := by
  fun_induction pairs indent cs with
  | case1 | case3 | case4 => exact fun h => absurd rfl h
  | case2 cs width rest hd ih =>
      exact (finds_shift ..).2 (ih.mono fun _ n _ _ => Nat.add_pos_left (Nat.succ_pos width) n)
  | case5 => trivial
  | case6 cs width c rest hne hd hlt p n hp m ih =>
      have hpos : 0 < m := by
        have := (pair_pos hp).1
        show 0 < width + n + _
        omega
      refine (finds_shift ..).2 ((finds_map ..).2 (ih.mono fun _ k _ _ => ?_))
      exact Nat.add_pos_left hpos k

/-- A block has a pair, so it takes something. -/
theorem Metadata.block_pos (indent : Nat) (cs : List Char) :
    (block indent cs).Finds fun _ n => 0 < n := by
  have hpos := pairs_pos indent cs
  rw [block_eq]
  split
  · trivial
  · next hno =>
    refine (finds_map ..).2 (finds_iff.2 fun ps n hps => hpos.of_eq hps fun hnil => ?_)
    exact hno n (hnil ▸ hps)

namespace Field

variable {r : Registry} {f : Field} {fs : List Field} {cs : List Char}

/-- While the fields are read at the front of `cs`, the block of a field of
type `object` ends at place `p`. -/
inductive EndsBlock (r : Registry) : List Field → List Char → Nat → Prop
  | here {f : Field} {fs : List Field} {cs : List Char} {v : Value} {n : Nat}
      (object : f.ReadAs r .object) (found : f.read r (cs.drop (inlineBlanks cs)) = .found v n) :
      EndsBlock r (f :: fs) cs (inlineBlanks cs + n)
  | found {f : Field} {fs : List Field} {cs : List Char} {v : Value} {n p : Nat}
      (found : f.read r (cs.drop (inlineBlanks cs)) = .found v n)
      (below : EndsBlock r fs (cs.drop (inlineBlanks cs + n)) p) :
      EndsBlock r (f :: fs) cs (inlineBlanks cs + n + p)
  | absent {f : Field} {fs : List Field} {cs : List Char} {p : Nat} (optional : f.required = false)
      (absent : f.read r (cs.drop (inlineBlanks cs)) = .absent)
      (below : EndsBlock r fs (cs.drop (inlineBlanks cs)) p) :
      EndsBlock r (f :: fs) cs (inlineBlanks cs + p)

/-- What an object takes is a block. -/
theorem read_object (hf : f.ReadAs r .object) {v : Value} {n : Nat}
    (h : f.read r cs = .found v n) : 0 < n ∧ Boundary cs n := by
  have hblock : (Shape.object.read cs).Finds fun _ n => 0 < n ∧ Boundary cs n :=
    (finds_map ..).2 (finds_iff.2 fun _ _ hb => ⟨(Metadata.block_pos 0 cs).of_eq hb,
      (Metadata.block_boundary 0 cs).of_eq hb⟩)
  exact (read_finds_of_readAs hf hblock).of_eq h

/-- **An object ends where a line does.** -/
theorem EndsBlock.boundary {p : Nat} (h : EndsBlock r fs cs p) : 0 < p ∧ Boundary cs p := by
  have hfrom : ∀ {cs : List Char} {m n : Nat}, 0 < n ∧ Boundary (cs.drop m) n →
      0 < m + n ∧ Boundary cs (m + n) := by
    intro cs m n hn
    have hle := hn.2.le
    rw [List.length_drop] at hle
    exact ⟨Nat.add_pos_right m hn.1, hn.2.from_inside (by omega) hn.1⟩
  induction h with
  | here object found => exact hfrom (read_object object found)
  | found _ _ ih => exact hfrom ih
  | absent _ _ _ ih => exact hfrom ih

/-- An object ends before the fields do, or with them. -/
theorem EndsBlock.le {p : Nat} (h : EndsBlock r fs cs p) (values : Pairs Value) :
    (readAll r fs values cs).Finds fun _ n => p ≤ n := by
  induction h generalizing values with
  | here object found =>
      rw [readAll_cons, found]
      exact (finds_shift ..).2 (finds_iff.2 fun _ k _ => Nat.le_add_right _ k)
  | found found _ ih =>
      rw [readAll_cons, found]
      exact (finds_shift ..).2 ((ih _).mono fun _ k hk => Nat.add_le_add_left hk _)
  | absent optional absent _ ih =>
      rw [readAll_cons, absent]
      simp only [optional]
      exact (finds_shift ..).2 ((ih _).mono fun _ k hk => Nat.add_le_add_left hk _)

/-- Without quotes, a field stays on its line or takes a block. -/
theorem read_quoteless (hf : f.OfShape r Shape.Lined) (hq : '"' ∉ cs) :
    (f.read r cs).Finds fun _ n => n ≤ (lineAhead cs).length ∨
      f.ReadAs r .object ∧ Throughout Attached cs 0 n := by
  rw [read_eq]
  cases hr : f.readerIn r with
  | none => trivial
  | some reader =>
      obtain ⟨s, hs, rfl⟩ := hf reader hr
      refine checked_finds ?_
      cases hs with
      | inl hsingle => exact (Shape.read_quoteless hsingle hq).mono fun _ _ => .inl
      | inr hobject =>
          subst hobject
          exact (finds_map ..).2 ((Metadata.block_attached hq).mono fun _ _ hn => .inr ⟨hr, hn⟩)

/-- **Where fields are read, every line is attached, or an object ends
there.** -/
theorem readAll_quoteless (hfs : ∀ f ∈ fs, f.OfShape r Shape.Lined) (hq : '"' ∉ cs)
    (values : Pairs Value) :
    (readAll r fs values cs).Finds fun _ n => ∀ p, 1 ≤ p → p ≤ n → Complete (cs.take p) →
      Attached (cs.drop p) ∨ EndsBlock r fs cs p := by
  -- the place `n` counts: where an object ends, the next line starts
  induction fs generalizing cs values with
  | nil =>
      intro p h1 hp
      omega
  | cons f fs ih =>
      have hblank := inlineBlanks_le_lineAhead cs
      have hquote : ∀ k, '"' ∉ cs.drop k := fun k hm => hq (List.mem_of_mem_drop hm)
      have hrest := fun k => ih (fun g hg => hfs g (List.mem_cons_of_mem f hg)) (hquote k)
      refine readAll_cons_finds (fun v k hv => ?_) fun hoptional hv => ?_
      · refine (hrest _ _).mono fun _ n hn p h1 hp hc => ?_
        by_cases hin : p ≤ inlineBlanks cs + k
        · -- the line starts in what the field takes
          rcases (read_quoteless (hfs f List.mem_cons_self) (hquote _)).of_eq hv with
            hline | ⟨hobject, hblock⟩
          · exact absurd hc (not_complete_take h1
              (Nat.le_trans hin (add_le_lineAhead hblank hline)))
          · by_cases hgap : p ≤ inlineBlanks cs
            · exact absurd hc (not_complete_take h1 (Nat.le_trans hgap hblank))
            · obtain ⟨q, rfl⟩ := Nat.exists_eq_add_of_le (Nat.le_of_not_le hgap)
              rcases Nat.lt_or_eq_of_le (Nat.le_of_add_le_add_left hin) with hlt | rfl
              · rw [← List.drop_drop]
                exact .inl (hblock q (Nat.zero_le q) hlt hc.take_drop)
              · exact .inr (.here hobject hv)
        · obtain ⟨q, rfl⟩ := Nat.exists_eq_add_of_le (Nat.le_of_not_le hin)
          rw [← List.drop_drop]
          exact (hn q (by omega) (by omega) hc.take_drop).imp_right (.found hv)
      · refine (hrest _ _).mono fun _ n hn p h1 hp hc => ?_
        by_cases hin : p ≤ inlineBlanks cs
        · exact absurd hc (not_complete_take h1 (Nat.le_trans hin hblank))
        · obtain ⟨q, rfl⟩ := Nat.exists_eq_add_of_le (Nat.le_of_not_le hin)
          rw [← List.drop_drop]
          exact (hn q (by omega) (by omega) hc.take_drop).imp_right (.absent hoptional hv)

end Field

/-! ## Directives -/

namespace Transaction

/-- A transaction has a narration, so it needs quotes. -/
theorem header_quoteless {cs : List Char} (h : '"' ∉ cs) :
    (header cs).Finds fun _ _ => False := by
  refine finds_andThen (finds_iff.2 fun date n _ => finds_andThen (finds_iff.2 fun flag m _ => ?_))
  have hquote : ∀ k, '"' ∉ (((cs.drop n).drop m).drop k) := fun k hm =>
    h (List.mem_of_mem_drop (List.mem_of_mem_drop (List.mem_of_mem_drop hm)))
  refine finds_andThen ((finds_shift ..).2 ?_)
  rw [titles_eq, Token.quoted_quoteless (hquote _)]
  trivial

end Transaction

namespace Directive

variable {r : Registry} {d : Directive} {cs : List Char}

/-- While the directive reads at the front of `cs`, the block of an object
ends at place `p`. -/
def EndsBlock (r : Registry) : Directive → List Char → Nat → Prop
  | schema _ fields, cs, p => Field.EndsBlock r fields cs p
  | custom _ _, _, _ => False

/-- **Behind the first line of what a directive reads, every line is
attached, or an object ends there.** -/
theorem body_quoteless (hd : d.OfShape r Shape.Lined) (hq : '"' ∉ cs) :
    (d.body r cs).Finds fun _ n => ∀ p, 1 ≤ p → p < n → Complete (cs.take p) →
      Attached (cs.drop p) ∨ d.EndsBlock r cs p := by
  cases d with
  | custom kind read =>
      show (Transaction.read cs).Finds _
      rw [Transaction.read_eq]
      exact finds_andThen ((Transaction.header_quoteless hq).mono fun _ _ hf => hf.elim)
  | schema kind fields =>
      show (readSchema r kind fields cs).Finds _
      rw [readSchema_eq]
      refine finds_andThen ((Field.readAll_quoteless hd hq []).mono fun values k hk => ?_)
      have hstay : Metadata.PairsStay ((cs.drop k).drop (lineLength (cs.drop k))) :=
        Metadata.pairsStay_of_quoteless fun hm =>
          hq (List.mem_of_mem_drop (List.mem_of_mem_drop hm))
      refine (afterFields_interior kind values hstay).mono fun _ n hn p h1 hp hc => ?_
      obtain ⟨m, rfl, hm⟩ := hn
      by_cases hin : p ≤ k
      · exact hk p h1 hin hc
      · -- behind the fields come the rest of a line and metadata
        obtain ⟨q, rfl⟩ := Nat.exists_eq_add_of_le (Nat.le_of_not_le hin)
        have hbelow : Throughout Attached (cs.drop k) 1 (lineLength (cs.drop k) + m) :=
          (throughout_lineLength Attached _).add (Throughout.mono hm fun _ => .inl)
        rw [← List.drop_drop]
        exact .inl (hbelow q (by omega) (by omega) hc.take_drop)

/-- Behind the end of an object the directive takes a line more. -/
theorem EndsBlock.lt {p : Nat} (h : d.EndsBlock r cs p) (hp : cs.drop p ≠ []) :
    (d.body r cs).Finds fun _ n => p < n := by
  cases d with
  | custom kind read => exact h.elim
  | schema kind fields =>
      show (readSchema r kind fields cs).Finds _
      rw [readSchema_eq]
      refine finds_andThen ((Field.EndsBlock.le h []).mono fun values k hk => ?_)
      refine (finds_shift ..).2 (finds_iff.2 fun _ m _ => ?_)
      rcases Nat.lt_or_eq_of_le hk with hlt | rfl
      · omega
      · have := lineLength_pos hp
        omega

theorem EndsBlock.boundary {p : Nat} (h : d.EndsBlock r cs p) : 0 < p ∧ Boundary cs p := by
  cases d with
  | custom kind read => exact h.elim
  | schema kind fields => exact Field.EndsBlock.boundary h

end Directive

/-! ## Entries -/

namespace Grammar

variable {g : Grammar}

/-- While the grammar reads an entry at the front of `cs`, the block of an
object ends at place `p`. -/
def EndsBlock (g : Grammar) (cs : List Char) (p : Nat) : Prop :=
  ∃ d e n, g.Tries cs d ∧ d.body g.registry cs = .found e n ∧ d.EndsBlock g.registry cs p

variable {c : Cursor} {e : Entry} {n : Nat}

/-- **Behind the first line of an entry, every line is attached, or an
object ends there.** -/
theorem entryAt_quoteless (hg : g.OfShape Shape.Lined) (hq : '"' ∉ c.rest)
    (he : g.entryAt c = .ok (e, n)) {p : Nat} (h1 : 1 ≤ p) (hp : p < n)
    (hc : Complete (c.rest.take p)) : Attached (c.rest.drop p) ∨ g.EndsBlock c.rest p := by
  rw [entryAt_eq hg] at he
  cases hb : firstBody g.registry c.rest g.directives with
  | broken f => simp [hb] at he
  | absent =>
      rw [hb] at he
      cases he
      exact .inl (.inl (Recovery.length_interior c.rest p h1 hp hc))
  | found e' n' =>
      rw [hb] at he
      cases he
      obtain ⟨d, htries, hd⟩ := (firstBody_eq_iff (by nofun)).1 hb
      exact ((Directive.body_quoteless (hg d htries.mem) hq).of_eq hd p h1 hp hc).imp_right
        fun hend => ⟨d, _, _, htries, hd, hend⟩

/-- The entry goes on behind the end of an object. -/
theorem EndsBlock.lt (hg : g.OfShape Shape.Lined) {p : Nat} (h : g.EndsBlock c.rest p)
    (hp : c.rest.drop p ≠ []) (he : g.entryAt c = .ok (e, n)) : 0 < p ∧ p < n := by
  obtain ⟨d, e', n', htries, hd, hend⟩ := h
  rw [entryAt_eq hg, firstBody_of_tries htries hd] at he
  cases he
  exact ⟨hend.boundary.1, (hend.lt hp).of_eq hd⟩

/-- In the span, the block of an object ends at place `p` of the text. -/
def Span.EndsBlock (g : Grammar) (text : List Char) (s : Span) (p : Nat) : Prop :=
  ∃ k, p = s.start + k ∧ g.EndsBlock (text.drop s.start) k

variable {text : List Char} {s : Span} {p : Nat}

/-- A line at the margin inside an entry, without a key, stands where an
object ends. -/
theorem Span.Reads.endsBlock (hs : s.Reads g text) (hg : g.OfShape Shape.Lined) (hq : '"' ∉ text)
    (hp : StartsLine text p) (hkey : Metadata.key? (text.drop p) = none) (hstart : s.start < p)
    (hstop : p < s.stop) : s.EndsBlock g text p := by
  obtain ⟨k, rfl⟩ := Nat.exists_eq_add_of_le (Nat.le_of_lt hstart)
  have hrest : '"' ∉ ((Cursor.start g.source text).advance s.start).rest := fun hm =>
    hq (List.mem_of_mem_drop hm)
  rcases entryAt_quoteless hg hrest hs.reads (p := k) (by omega) (by omega) hp.line.take_drop with
    hattached | hend
  · rw [Cursor.rest_advance, Cursor.rest_start, List.drop_drop] at hattached
    rcases hattached with hhung | hkeyed
    · exact absurd hhung hp.not_hung
    · exact absurd hkey hkeyed
  · exact ⟨k, rfl, hend⟩

/-- The line where an object ends is inside the entry. -/
theorem Span.EndsBlock.inside (h : s.EndsBlock g text p) (hs : s.Reads g text)
    (hg : g.OfShape Shape.Lined) (hp : StartsLine text p) : s.start < p ∧ p < s.stop := by
  obtain ⟨k, rfl, hend⟩ := h
  have hahead : (text.drop s.start).drop k ≠ [] := by
    rw [List.drop_drop, ne_eq, List.drop_eq_nil_iff]
    exact Nat.not_le_of_lt hp.inside
  have := Grammar.EndsBlock.lt hg (c := (Cursor.start g.source text).advance s.start) hend hahead
    hs.reads
  omega

/-! ## Lines at the margin -/

/-- **A line of its own without a key starts an entry, or an object ends
there.** -/
theorem Covers.starts_or_endsBlock (hg : g.OfShape Shape.Lined) (hq : '"' ∉ text) {q : Nat}
    {spans : List Span} (h : Covers g text q spans) (hqp : q ≤ p) (hp : StartsLine text p)
    (hkey : Metadata.key? (text.drop p) = none) :
    (∃ s ∈ spans, s.start = p) ∨ ∃ s ∈ spans, s.EndsBlock g text p := by
  rcases h.starts_or_inside hqp hp with hstarts | ⟨s, hs, hstart, hstop⟩
  · exact .inl hstarts
  · exact .inr ⟨s, hs, (h.mem_reads s hs).endsBlock hg hq hp hkey hstart hstop⟩

/-- No entry names a line inside another. -/
theorem Covers.lineAt_ne {q : Nat} {spans : List Span} (h : Covers g text q spans)
    (hs : s ∈ spans) (hp : StartsLine text p) (hstart : s.start < p) (hstop : p < s.stop) :
    ∀ s' ∈ spans, lineAt text s'.start ≠ lineAt text p := by
  have hline : Boundary text p := ⟨Nat.le_of_lt hp.inside, .inr hp.line⟩
  have hinside : ∀ {t : Span}, t.Reads g text → t.start < text.length :=
    fun ht => Nat.lt_of_lt_of_le ht.nonempty ht.stop.le
  induction h with
  | done _ => cases hs
  | @span q s₀ spans _ _ reads below ih =>
      intro s' hs'
      rcases List.mem_cons.1 hs with rfl | hmem
      · rcases List.mem_cons.1 hs' with rfl | hs'
        · exact Nat.ne_of_lt (lineAt_lt hline hstart (Nat.le_refl p) hp.inside)
        · have hbelow := below.le_start s' hs'
          exact Nat.ne_of_gt (lineAt_lt reads.stop hstop hbelow (hinside (below.mem_reads s' hs')))
      · rcases List.mem_cons.1 hs' with rfl | hs'
        · have hbelow := below.le_start s hmem
          exact Nat.ne_of_lt (lineAt_lt reads.stop reads.nonempty (by omega) hp.inside)
        · exact ih hmem s' hs'

/-- A line inside an entry is not the line of any. -/
theorem Covers.not_namedAt {q : Nat} {spans : List Span} (h : Covers g text q spans)
    (hs : s ∈ spans) (hp : StartsLine text p) (hstart : s.start < p) (hstop : p < s.stop)
    (i : Nat) : ¬NamedAt (spans.map (·.entry)) (Entry.place g.source (lineAt text p)) i := by
  rintro ⟨e, he, hloc⟩
  obtain ⟨s', hi, rfl⟩ : ∃ s', spans[i]? = some s' ∧ s'.entry = e := by simpa using he
  have hs' : s' ∈ spans := List.mem_of_getElem? hi
  rw [(h.mem_reads s' hs').location] at hloc
  exact h.lineAt_ne hs hp hstart hstop s' hs'
    (Entry.place_inj (Scalar.text.inj (Option.some.inj hloc)))

end Grammar

/-! ## Builtin types -/

/-- The field has a builtin type, and no reader of its own. -/
structure Field.Typed (f : Field) (r : Registry) : Prop where
  plain : f.reader = none
  type : r.readers.get? f.type = FieldReader.builtin.get? f.type

/-- The directive is a schema of builtin types. -/
def Directive.Typed (r : Registry) : Directive → Prop
  | .schema _ fields => ∀ f ∈ fields, f.Typed r
  | .custom _ _ => False

/-- The shapes that builtin types name. -/
def Shape.builtin : List Shape := [.string, .number, .boolean, .date, .amount, .account, .array,
  .email, .object, .mark, .marks, .marks]

theorem Shape.map_read_builtin : FieldReader.builtin.map (·.2) = Shape.builtin.map read := rfl

theorem Shape.lined_builtin : ∀ s ∈ Shape.builtin, s.Lined := by
  simp [builtin, Lined, SingleLine]

theorem Field.Typed.ofShape {f : Field} {r : Registry} (h : f.Typed r) :
    f.OfShape r Shape.Lined := by
  intro reader hreader
  have hget : FieldReader.builtin.get? f.type = some reader := by
    rw [← h.type, ← hreader, readerIn, h.plain]
    rfl
  obtain ⟨p, hp, rfl⟩ := Option.map_eq_some_iff.1 hget
  have hmem : p.2 ∈ FieldReader.builtin.map (·.2) :=
    List.mem_map_of_mem (List.mem_of_find?_eq_some hp)
  rw [Shape.map_read_builtin] at hmem
  obtain ⟨s, hs, heq⟩ := List.mem_map.1 hmem
  exact ⟨s, Shape.lined_builtin s hs, heq.symm⟩

theorem Grammar.ofShape_of_typed {g : Grammar}
    (h : ∀ d ∈ g.directives, d.Typed g.registry) : g.OfShape Shape.Lined := by
  intro d hd
  have hb := h d hd
  cases d with
  | schema kind fields => exact fun f hf => (hb f hf).ofShape
  | custom kind read => exact hb.elim

/-- **A line is lost exactly where an object ends.** Schemas of builtin
types read a text without quotes. A line of its own that has no key is
the line of exactly one entry, unless the block of an object ends where
the line starts. -/
theorem Grammar.parse_line_named_iff {g : Grammar} (hg : ∀ d ∈ g.directives, d.Typed g.registry)
    {text : String} (hq : '"' ∉ text.toList) {es : List Entry} (h : g.parse text = .ok es) :
    ∃ spans : List Span, spans.map (·.entry) = es ∧ Covers g text.toList 0 spans ∧
      ∀ p, StartsLine text.toList p → Metadata.key? (text.toList.drop p) = none →
        ((∃! i, NamedAt es (Entry.place g.source (lineAt text.toList p)) i) ↔
          ¬∃ s ∈ spans, s.EndsBlock g text.toList p) := by
  have hshape := ofShape_of_typed hg
  obtain ⟨spans, rfl, hcovers⟩ := parse_covers hshape h
  refine ⟨spans, rfl, hcovers, fun p hp hkey => ?_⟩
  constructor
  · rintro ⟨i, hi, -⟩ ⟨s, hs, hend⟩
    obtain ⟨hstart, hstop⟩ := hend.inside (hcovers.mem_reads s hs) hshape hp
    exact hcovers.not_namedAt hs hp hstart hstop i hi
  · intro hkept
    rcases hcovers.starts_or_endsBlock hshape hq (Nat.zero_le p) hp hkey with ⟨s, hs, rfl⟩ | hend
    · exact hcovers.unique hs
    · exact absurd hend hkept

/-- A grammar whose only directive is an object. -/
def Grammar.cards : Grammar :=
  { source := "stdin"
    directives := [.schema "card" [{ name := "data", type := "object", required := true }]]
    registry := ⟨FieldReader.builtin, []⟩ }

theorem Grammar.typed_cards : ∀ d ∈ cards.directives, d.Typed cards.registry :=
  List.forall_mem_singleton.2 (List.forall_mem_singleton.2 ⟨rfl, rfl⟩)

/-- A card, and a line that no directive knows. -/
def Grammar.card : String := "k: v\nfoo bar\n"

/-- The entry of the card. -/
def Grammar.cardEntry : Entry :=
  ⟨"", [("location", .text "stdin:1")],
    .plain "card" [("data", .ofMetadata [("k", .text "v")])]⟩

theorem Grammar.parse_line_named_card :
    ∃ spans : List Span, spans.map (·.entry) = [cardEntry] ∧ Covers cards card.toList 0 spans ∧
      ∀ p, StartsLine card.toList p → Metadata.key? (card.toList.drop p) = none →
        ((∃! i, NamedAt [cardEntry] (Entry.place cards.source (lineAt card.toList p)) i) ↔
          ¬∃ s ∈ spans, s.EndsBlock cards card.toList p) :=
  parse_line_named_iff typed_cards (by decide) (by with_unfolding_all rfl)

/-- **The line below a card is lost.** -/
theorem Grammar.parse_card_loses : cards.parse card = .ok [cardEntry] ∧
    StartsLine card.toList 5 ∧ Metadata.key? (card.toList.drop 5) = none ∧
    ∀ i, ¬NamedAt [cardEntry] (Entry.place cards.source (lineAt card.toList 5)) i := by
  have hupper : card.toList.take 5 = "k: v".toList ++ ['\n'] := rfl
  have hplace : Entry.place cards.source (lineAt card.toList 5) = "stdin:2" := rfl
  refine ⟨by with_unfolding_all rfl, ⟨by decide, hupper ▸ complete_concat _, ?_, rfl⟩, rfl, ?_⟩
  · intro c hc
    cases hc
    rfl
  · rintro i ⟨e, he, hloc⟩
    obtain rfl : e = cardEntry := List.mem_singleton.1 (List.mem_of_getElem? he)
    have hfirst : cardEntry.location = some (.text "stdin:1") := rfl
    rw [hplace, hfirst] at hloc
    simp at hloc

end Daybook
