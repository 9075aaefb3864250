import Daybook.Proofs.Concatenation
import Daybook.Proofs.Interior

/-!
# Coverage — every line belongs to one entry or to none

The entries of a text stand in spans of it, one behind the other. Between
the spans there are only blank lines, comments and the indent of the line
on which the next one starts (`Covers`), so the text is accounted for to
the last character. When quotes come in pairs on every line, a line at
the margin that is not a comment cannot be inside a span, so it starts
one.
-/

namespace Daybook

open Daybook.Text Daybook.Reading

namespace Entry

theorem place_inj {source : String} {m n : Nat} (h : place source m = place source n) : m = n := by
  have hr : Nat.repr m = Nat.repr n := by
    unfold place at h
    exact (String.append_right_inj _).1 h
  have hd : Nat.toDigits 10 m = Nat.toDigits 10 n := by
    simpa [Nat.repr] using congrArg String.toList hr
  calc m = Nat.ofDigitChars 10 (Nat.toDigits 10 m) 0 := Nat.ofDigitChars_ten_toDigits.symm
    _ = Nat.ofDigitChars 10 (Nat.toDigits 10 n) 0 := by rw [hd]
    _ = n := Nat.ofDigitChars_ten_toDigits

end Entry

namespace Grammar

variable {g : Grammar}

/-! ## Idle lines -/

/-- Lines that hold nothing but white space and comments, each with its
newline. -/
inductive IdleLines : List Char → Prop
  | nil : IdleLines []
  | cons {l rest : List Char} (single : '\n' ∉ l) (idle : idleFront l = true)
      (below : IdleLines rest) : IdleLines (l ++ '\n' :: rest)

/-- Idle lines, and the white space before what comes next on a line. -/
structure Between (cs : List Char) : Prop where
  split : ∃ lines indent, cs = lines ++ indent ∧ IdleLines lines ∧
    ∀ c ∈ indent, isInlineBlank c = true

/-- Idle lines, the last of them without a newline. -/
structure Behind (cs : List Char) : Prop where
  split : ∃ lines last, cs = lines ++ last ∧ IdleLines lines ∧ '\n' ∉ last ∧
    idleFront last = true

theorem onLine_idleFront : OnLine idleFront := by
  intro cs
  have hb := inlineBlanks_le_lineAhead cs
  have hhead : ∀ ds : List Char, (lineAhead ds).head?.all (· == '\n') =
      ds.head?.all (· == '\n') := Metadata.onLine_lineEnd
  rw [idleFront, idleFront, onLine_inlineBlanks, onLine_startsComment.drop hb,
    ← lineAhead_drop hb, hhead]

theorem idleFront_line {l : List Char} (h : '\n' ∉ l) (rest : List Char) :
    idleFront (l ++ '\n' :: rest) = idleFront l := by
  rw [← onLine_idleFront, lineAhead_line l rest h]

/-- An idle line at the margin is empty or a comment. -/
theorem not_idleFront {cs : List Char} (hne : cs ≠ []) (hm : AtMargin cs)
    (hc : startsComment cs = false) : idleFront cs = false := by
  cases cs with
  | nil => exact absurd rfl hne
  | cons c cs =>
      have hnl : c ≠ '\n' := fun h => hm.head?_ne_newline (by rw [h]; rfl)
      rw [idleFront, hm.inlineBlanks_eq_zero, List.drop_zero, hc]
      simpa using hnl

/-- Behind the white space of a line that is not idle, an entry may
start. -/
theorem gap_of_not_idleFront {cs : List Char} (h : idleFront cs = false) :
    gap (cs.drop (inlineBlanks cs)) = 0 ∧ cs.drop (inlineBlanks cs) ≠ [] := by
  rw [idleFront, Bool.or_eq_false_iff] at h
  obtain ⟨hhead, hcomment⟩ := h
  have hzero := inlineBlanks_drop cs
  generalize cs.drop (inlineBlanks cs) = ds at *
  have hne : ds ≠ [] := by
    rintro rfl
    simp at hhead
  have hnl : ds.head? ≠ some '\n' := by
    intro hn
    simp [hn] at hhead
  refine ⟨?_, hne⟩
  rw [gap, if_neg (by omega), if_neg hnl, hcomment]
  rfl

/-- Every line that starts among idle lines is idle. -/
theorem IdleLines.idleFront_drop {ls : List Char} (h : IdleLines ls) (ds : List Char) {k : Nat}
    (hk : k < ls.length) (hc : Complete (ls.take k)) :
    idleFront ((ls ++ ds).drop k) = true := by
  induction h generalizing k with
  | nil => exact absurd hk (Nat.not_lt_zero k)
  | @cons l rest single idle below ih =>
      rw [List.append_assoc, List.cons_append]
      by_cases hzero : k = 0
      · rw [hzero, List.drop_zero, idleFront_line single]
        exact idle
      · -- no line starts inside of `l`
        have hbehind : l.length < k := by
          by_contra hinside
          have hle : k ≤ l.length := by omega
          rw [List.take_append_of_le_length hle] at hc
          have hne : l.take k ≠ [] := by
            intro hnil
            have := congrArg List.length hnil
            rw [List.length_take, List.length_nil] at this
            omega
          exact single (List.mem_of_mem_take (hc.newline_mem hne))
        obtain ⟨j, rfl⟩ := Nat.exists_eq_add_of_lt hbehind
        have hrest : (l ++ '\n' :: (rest ++ ds)).drop (l.length + j + 1) = (rest ++ ds).drop j := by
          rw [Nat.add_assoc, List.drop_length_add_append, List.drop_succ_cons]
        rw [hrest]
        refine ih ?_ ?_
        · simp at hk
          omega
        · have htake : rest.take j = ((l ++ '\n' :: rest).take (l.length + j + 1)).drop
              (l.length + 1) := by
            rw [List.drop_take, List.drop_length_add_append, List.drop_succ_cons, List.drop_zero]
            congr 1
            omega
          rw [htake]
          exact hc.drop _

/-! ## Spans of entries -/

/-- The line of the text to which place `p` belongs, counted from one. -/
def lineAt (text : List Char) (p : Nat) : Nat := 1 + (text.take p).count '\n'

/-- At place `p` stands the first character of a line that is not white
space. -/
structure FirstOnLine (text : List Char) (p : Nat) : Prop where
  line : ∃ start, Complete (text.take start) ∧ p = start + inlineBlanks (text.drop start)
  margin : AtMargin (text.drop p)

/-- An entry, and the places of the text at which it starts and ends. -/
structure Span where
  start : Nat
  stop : Nat
  entry : Entry

/-- The entry is what the grammar reads at the start of the span, up to
its end; it starts where its line does, ends where a line does, and
names the line on which it starts. -/
structure Span.Reads (g : Grammar) (text : List Char) (s : Span) : Prop where
  nonempty : s.start < s.stop
  stop : Boundary text s.stop
  first : FirstOnLine text s.start
  reads : g.entryAt ((Cursor.start g.source text).advance s.start) =
    .ok (s.entry, s.stop - s.start)
  location : s.entry.location = some (.text (Entry.place g.source (lineAt text s.start)))

/-- From place `p` on, the text is made of these spans and idle lines. -/
inductive Covers (g : Grammar) (text : List Char) : Nat → List Span → Prop
  | done {p : Nat} (behind : Behind (text.drop p)) : Covers g text p []
  | span {p : Nat} {s : Span} {spans : List Span} (ahead : p ≤ s.start)
      (between : Between ((text.drop p).take (s.start - p))) (reads : s.Reads g text)
      (below : Covers g text s.stop spans) : Covers g text p (s :: spans)

/-- White space alone. -/
theorem Between.blanks (cs : List Char) : Between (cs.take (inlineBlanks cs)) := by
  refine ⟨[], _, rfl, .nil, fun c hc => ?_⟩
  have htake : cs.take (inlineBlanks cs) = cs.takeWhile isInlineBlank :=
    (List.prefix_iff_eq_take.1 (List.takeWhile_prefix _)).symm
  rw [htake] at hc
  exact List.mem_takeWhile_imp hc

theorem Behind.nil : Behind [] := ⟨[], [], rfl, .nil, by simp, rfl⟩

/-- The line at the front may be added to what the spans cover, if it is
idle. -/
theorem Covers.idle {text : List Char} {p : Nat} {spans : List Span}
    (hi : idleFront (text.drop p) = true)
    (h : Covers g text (p + lineLength (text.drop p)) spans) : Covers g text p spans := by
  rcases line_cases (text.drop p) with ⟨hn, hl⟩ | ⟨l, rest, hl, hrest⟩
  · -- the last line, which no span can follow
    have hover : text.drop (p + lineLength (text.drop p)) = [] := by
      rw [lineLength_eq_length hn, ← List.drop_drop, List.drop_length]
    cases h with
    | done behind => exact .done ⟨[], _, rfl, .nil, hn, hi⟩
    | @span _ s spans ahead between reads below =>
        have hlen : text.length ≤ p + lineLength (text.drop p) := List.drop_eq_nil_iff.1 hover
        have := reads.nonempty
        have := reads.stop.le
        omega
  · rw [hrest] at hi h
    rw [idleFront_line hl] at hi
    rw [lineLength_line l rest hl] at h
    have hdrop : text.drop (p + (l.length + 1)) = rest := by
      rw [← List.drop_drop, hrest, List.drop_length_add_append, List.drop_succ_cons,
        List.drop_zero]
    cases h with
    | done behind =>
        obtain ⟨lines, last, hsplit, hidle, hlast⟩ := behind
        refine .done ⟨l ++ '\n' :: lines, last, ?_, .cons hl hi hidle, hlast⟩
        rw [hrest, ← hdrop, hsplit, List.append_assoc, List.cons_append]
    | @span _ s spans ahead between reads below =>
        obtain ⟨lines, indent, hsplit, hidle, hblank⟩ := between
        refine .span (by omega) ⟨l ++ '\n' :: lines, indent, ?_, .cons hl hi hidle, hblank⟩
          reads below
        obtain ⟨k, hk⟩ := Nat.exists_eq_add_of_le ahead
        have htake : s.start - p = l.length + (k + 1) := by omega
        have hk' : s.start - (p + (l.length + 1)) = k := by omega
        rw [hdrop, hk'] at hsplit
        rw [hrest, htake, List.take_length_add_append, List.take_succ_cons, hsplit,
          List.append_assoc, List.cons_append]

/-! ## The walk covers the text -/

theorem location_of_entryAt {p : Shape → Prop} (h : g.OfShape p) {c : Cursor} {e : Entry} {n : Nat}
    (he : g.entryAt c = .ok (e, n)) : e.location = some (.text c.location) := by
  rw [entryAt_eq h] at he
  cases hb : firstBody g.registry c.rest g.directives with
  | found e' n' =>
      rw [hb] at he
      cases he
      exact Entry.location_locatedAt e' c.location
  | broken f => simp [hb] at he
  | absent =>
      rw [hb] at he
      cases he
      exact Entry.location_entryAt c

/-- What is read behind the white space of a line makes a span. -/
theorem reads_of_entryAt {p : Shape → Prop} (h : g.OfShape p) {text : List Char} {n b k : Nat}
    {e : Entry} (hn : Complete (text.take n)) (hb : inlineBlanks (text.drop n) = b)
    (hgap : gap (text.drop (n + b)) = 0) (hne : text.drop (n + b) ≠ [])
    (he : g.entryAt ((Cursor.start g.source text).advance (n + b)) = .ok (e, k)) :
    Span.Reads g text ⟨n + b, n + b + k, e⟩ := by
  have hk : 0 < k := entryAt_pos h hne he
  have hboundary : Boundary (text.drop (n + b)) k := entryAt_boundary h he
  have hle : n + b ≤ text.length := by
    by_contra hover
    exact hne (List.drop_eq_nil_of_le (by omega))
  refine ⟨Nat.lt_add_of_pos_right hk, hboundary.from_inside hle hk,
    ⟨⟨n, hn, by rw [hb]⟩, (gap_eq_zero_iff.1 hgap).1⟩, ?_, location_of_entryAt h he⟩
  rw [he, Nat.add_sub_cancel_left]

/-- **The walk covers the text from a boundary on.** -/
theorem items_covers {p : Shape → Prop} (h : g.OfShape p) {text : List Char} {n : Nat}
    (hn : Boundary text n)
    (hok : (g.items ((Cursor.start g.source text).advance n)).2 = none) :
    ∃ spans : List Span, spans.map (·.entry) =
        (g.items ((Cursor.start g.source text).advance n)).1.map (·.entry) ∧
      Covers g text n spans := by
  induction hlen : text.length - n using Nat.strong_induction_on generalizing n with
  | _ m ih =>
      have hrest : ((Cursor.start g.source text).advance n).rest = text.drop n := rfl
      by_cases hnil : text.drop n = []
      · rw [items_nil (hrest.trans hnil)]
        exact ⟨[], rfl, .done (hnil ▸ .nil)⟩
      · have hlt : n < text.length := by
          rw [List.drop_eq_nil_iff] at hnil
          omega
        by_cases hi : idleFront (text.drop n) = true
        · -- an idle line is passed over
          have hpos := lineLength_pos hnil
          rw [items_idleFront (by rwa [hrest]), Cursor.advance_advance, hrest] at hok ⊢
          obtain ⟨spans, hmap, hcovers⟩ :=
            ih _ (by omega) (hn.add (boundary_lineLength _)) hok rfl
          exact ⟨spans, hmap, hcovers.idle hi⟩
        · -- behind the white space an entry comes next
          obtain ⟨hgap, hne⟩ := gap_of_not_idleFront (Bool.eq_false_iff.2 hi)
          have hline : Complete (text.take n) := hn.ends.resolve_left hnil
          rw [items_blanks, Cursor.advance_advance, hrest] at hok ⊢
          generalize hb : inlineBlanks (text.drop n) = b at hgap hne hok ⊢
          rw [List.drop_drop] at hgap hne
          cases he : g.entryAt ((Cursor.start g.source text).advance (n + b)) with
          | error f => simp [items_broken hgap hne he] at hok
          | ok answer =>
              obtain ⟨e, k⟩ := answer
              have hreads := reads_of_entryAt h hline hb hgap hne he
              have hk : 0 < k := entryAt_pos h hne he
              have hless : text.length - (n + b + k) < m := by
                have : n + b + k ≤ text.length := hreads.stop.le
                omega
              rw [items_found hgap hne he hk, Cursor.advance_advance] at hok ⊢
              obtain ⟨spans, hmap, hcovers⟩ := ih _ hless hreads.stop hok rfl
              have hblank : Between ((text.drop n).take (n + b - n)) := by
                rw [Nat.add_sub_cancel_left, ← hb]
                exact .blanks _
              exact ⟨⟨n + b, n + b + k, e⟩ :: spans, by simp [hmap],
                .span (Nat.le_add_right n b) hblank hreads hcovers⟩

/-- **The entries of a text stand in spans that cover it.** -/
theorem parse_covers {p : Shape → Prop} (h : g.OfShape p) {text : String} {es : List Entry}
    (hok : g.parse text = .ok es) :
    ∃ spans : List Span, spans.map (·.entry) = es ∧ Covers g text.toList 0 spans := by
  obtain ⟨hnone, rfl⟩ := parse_eq_ok_iff.1 hok
  have hstart : (Cursor.start g.source text.toList).advance 0 = .start g.source text.toList :=
    Cursor.advance_zero _
  rw [← hstart] at hnone ⊢
  exact items_covers h (boundary_zero text.toList) hnone

/-! ## The lines on which entries start -/

theorem Covers.le_start {text : List Char} {p : Nat} {spans : List Span}
    (h : Covers g text p spans) : ∀ s ∈ spans, p ≤ s.start := by
  induction h with
  | done _ => simp
  | @span p s spans ahead _ reads _ ih =>
      intro s' hs'
      rcases List.mem_cons.1 hs' with rfl | hs'
      · exact ahead
      · have hbelow := ih s' hs'
        have := reads.nonempty
        omega

theorem Covers.mem_reads {text : List Char} {p : Nat} {spans : List Span}
    (h : Covers g text p spans) : ∀ s ∈ spans, s.Reads g text := by
  induction h with
  | done _ => simp
  | span _ _ reads _ ih => exact List.forall_mem_cons.2 ⟨reads, ih⟩

/-- A line that starts further down has a greater number. -/
theorem lineAt_lt {text : List Char} {p q r : Nat} (hq : Boundary text q) (hpq : p < q)
    (hqr : q ≤ r) (hr : r < text.length) : lineAt text p < lineAt text r := by
  have hcomplete : Complete (text.take q) := by
    refine hq.ends.resolve_left fun hnil => ?_
    rw [List.drop_eq_nil_iff] at hnil
    omega
  have hsplit : text.take q = text.take p ++ (text.take q).drop p := by
    have htake : (text.take q).take p = text.take p := by
      rw [List.take_take, Nat.min_eq_left (Nat.le_of_lt hpq)]
    rw [← htake, List.take_append_drop]
  have hne : (text.take q).drop p ≠ [] := by
    rw [ne_eq, List.drop_eq_nil_iff, List.length_take]
    omega
  have hnewline : 0 < ((text.take q).drop p).count '\n' :=
    List.count_pos_iff.2 ((hcomplete.drop p).newline_mem hne)
  have hmono : (text.take q).count '\n' ≤ (text.take r).count '\n' :=
    ((List.take_prefix_take_left (l := text) hqr).sublist).count_le '\n'
  rw [hsplit, List.count_append] at hmono
  unfold lineAt
  omega

/-- **Entries stand on lines further and further down.** -/
theorem Covers.pairwise_line {text : List Char} {p : Nat} {spans : List Span}
    (h : Covers g text p spans) :
    (spans.map fun s => lineAt text s.start).Pairwise (· < ·) := by
  induction h with
  | done _ => exact .nil
  | @span p s spans ahead between reads below ih =>
      rw [List.map_cons, List.pairwise_cons]
      refine ⟨?_, ih⟩
      intro line hline
      obtain ⟨s', hs', rfl⟩ := List.mem_map.1 hline
      have hreads := below.mem_reads s' hs'
      have hinside : s'.start < text.length := Nat.lt_of_lt_of_le hreads.nonempty hreads.stop.le
      exact lineAt_lt reads.stop reads.nonempty (below.le_start s' hs') hinside

/-! ## Tidy texts -/

/-- A line of its own starts at place `p`: neither white space nor a
comment. -/
structure StartsLine (text : List Char) (p : Nat) : Prop where
  inside : p < text.length
  line : Complete (text.take p)
  margin : AtMargin (text.drop p)
  plain : startsComment (text.drop p) = false

theorem StartsLine.not_idle {text : List Char} {p : Nat} (h : StartsLine text p) :
    idleFront (text.drop p) = false := by
  refine not_idleFront ?_ h.margin h.plain
  rw [ne_eq, List.drop_eq_nil_iff]
  exact Nat.not_le_of_lt h.inside

theorem StartsLine.not_hung {text : List Char} {p : Nat} (h : StartsLine text p) :
    ¬Hung (text.drop p) := by
  rintro ⟨c, hc, hblank | rfl⟩
  · rw [h.margin c hc] at hblank
    cases hblank
  · have hplain := h.plain
    rw [startsComment, hc] at hplain
    simp at hplain

/-- No line of its own starts among idle lines. -/
theorem IdleLines.not_startsLine {text ls ds : List Char} {q k : Nat} (h : IdleLines ls)
    (hsplit : text.drop q = ls ++ ds) (hk : k < ls.length) : ¬StartsLine text (q + k) := by
  intro hstart
  have htake : ls.take k = (text.take (q + k)).drop q := by
    rw [List.drop_take, Nat.add_sub_cancel_left, hsplit,
      List.take_append_of_le_length (Nat.le_of_lt hk)]
  have hidle := h.idleFront_drop ds hk (htake ▸ hstart.line.drop q)
  rw [← hsplit, List.drop_drop, hstart.not_idle] at hidle
  cases hidle

theorem Between.not_startsLine {text : List Char} {q n k : Nat}
    (h : Between ((text.drop q).take n)) (hk : k < n) : ¬StartsLine text (q + k) := by
  intro hstart
  obtain ⟨ls, indent, hsplit, hidle, hblank⟩ := h
  have htext : text.drop q = ls ++ (indent ++ (text.drop q).drop n) := by
    rw [← List.append_assoc, ← hsplit, List.take_append_drop]
  by_cases hin : k < ls.length
  · exact hidle.not_startsLine htext hin hstart
  · -- the place is inside the white space
    obtain ⟨c, hc⟩ : ∃ c, (text.drop (q + k)).head? = some c := by
      rw [List.head?_drop]
      exact ⟨_, List.getElem?_eq_getElem hstart.inside⟩
    have hmem : c ∈ indent := by
      have hget : ((text.drop q).take n)[k]? = some c := by
        rw [List.getElem?_take_of_lt hk, List.getElem?_drop, ← List.head?_drop, hc]
      rw [hsplit, List.getElem?_append_right (by omega)] at hget
      exact List.mem_of_getElem? hget
    have hnot := hstart.margin c hc
    have hb := hblank c hmem
    rw [isInlineBlank, hnot] at hb
    cases hb

theorem Behind.not_startsLine {text : List Char} {q k : Nat} (h : Behind (text.drop q)) :
    ¬StartsLine text (q + k) := by
  intro hstart
  obtain ⟨ls, last, hsplit, hidle, hsingle, hfront⟩ := h
  by_cases hin : k < ls.length
  · exact hidle.not_startsLine hsplit hin hstart
  · obtain ⟨j, rfl⟩ := Nat.exists_eq_add_of_le (Nat.le_of_not_lt hin)
    have hdrop : text.drop (q + (ls.length + j)) = last.drop j := by
      rw [← List.drop_drop, hsplit, List.drop_length_add_append]
    by_cases hj : j = 0
    · have hnot := hstart.not_idle
      rw [hdrop, hj, List.drop_zero, hfront] at hnot
      cases hnot
    · -- a line that starts inside of the last one
      have htake : last.take j = (text.take (q + (ls.length + j))).drop (q + ls.length) := by
        rw [List.drop_take, ← List.drop_drop, hsplit, List.drop_left]
        congr 1
        omega
      have hcomplete : Complete (last.take j) := htake ▸ hstart.line.drop _
      have hne : last.take j ≠ [] := by
        have := hstart.inside
        intro hnil
        rcases List.take_eq_nil_iff.1 hnil with hzero | hlast
        · exact hj hzero
        · have hover := congrArg List.length hdrop
          rw [hlast, List.drop_nil, List.length_nil, List.length_drop] at hover
          omega
      exact hsingle (List.mem_of_mem_take (hcomplete.newline_mem hne))

/-- From where its line has its first character on, a tidy text is
tidy. -/
theorem FirstOnLine.tidy {text : List Char} {p : Nat} (h : FirstOnLine text p)
    (ht : Tidy text) : Tidy (text.drop p) := by
  obtain ⟨start, hline, rfl⟩ := h.line
  intro k hk
  by_cases hzero : k = 0
  · rw [hzero, List.drop_zero, ← List.drop_drop]
    exact (ht start hline).drop_inlineBlanks
  · rw [List.drop_drop]
    generalize start + inlineBlanks (text.drop start) = q at hk ⊢
    by_cases hne : (text.drop q).take k = []
    · rcases List.take_eq_nil_iff.1 hne with h0 | hnil
      · exact absurd h0 hzero
      · rw [← List.drop_drop, hnil, List.drop_nil]
        exact paired_nil
    · refine ht (q + k) ?_
      rw [List.take_add]
      exact hk.append_left hne _

/-- A line of its own starts an entry, or it is inside of one. -/
theorem Covers.starts_or_inside {text : List Char} {q : Nat} {spans : List Span}
    (h : Covers g text q spans) {p : Nat} (hqp : q ≤ p) (hp : StartsLine text p) :
    (∃ s ∈ spans, s.start = p) ∨ ∃ s ∈ spans, s.start < p ∧ p < s.stop := by
  induction h with
  | @done q behind =>
      obtain ⟨k, rfl⟩ := Nat.exists_eq_add_of_le hqp
      exact absurd hp behind.not_startsLine
  | @span q s spans ahead between reads below ih =>
      rcases Nat.lt_trichotomy p s.start with hbefore | heq | hafter
      · obtain ⟨k, rfl⟩ := Nat.exists_eq_add_of_le hqp
        exact absurd hp (between.not_startsLine (by omega))
      · exact .inl ⟨s, List.mem_cons_self, heq.symm⟩
      · by_cases hin : p < s.stop
        · exact .inr ⟨s, List.mem_cons_self, hafter, hin⟩
        · rcases ih (Nat.le_of_not_lt hin) with ⟨s', hs', hstart⟩ | ⟨s', hs', hinside⟩
          · exact .inl ⟨s', List.mem_cons_of_mem s hs', hstart⟩
          · exact .inr ⟨s', List.mem_cons_of_mem s hs', hinside⟩

/-- **In a tidy text, a line of its own starts an entry.** -/
theorem Covers.starts {source : String} {text : List Char} (ht : Tidy text) {q : Nat}
    {spans : List Span} (h : Covers (Builtin.grammar source) text q spans) {p : Nat}
    (hqp : q ≤ p) (hp : StartsLine text p) : ∃ s ∈ spans, s.start = p := by
  rcases h.starts_or_inside hqp hp with hstarts | ⟨s, hs, hstart, hstop⟩
  · exact hstarts
  · -- the entry takes nothing at the margin but comments
    have hreads := h.mem_reads s hs
    have hinterior := entryAt_interior (hreads.first.tidy ht) hreads.reads
    obtain ⟨k, rfl⟩ := Nat.exists_eq_add_of_le (Nat.le_of_lt hstart)
    have hhung := hinterior k (by omega) (by omega) hp.line.take_drop
    rw [Cursor.rest_advance, Cursor.rest_start, List.drop_drop] at hhung
    exact absurd hhung hp.not_hung

/-- Of the entries, the one at `i` names the place. -/
def NamedAt (es : List Entry) (place : String) (i : Nat) : Prop :=
  ∃ e : Entry, es[i]? = some e ∧ e.location = some (.text place)

/-- The spans tell by their lines which entry is which. -/
theorem Covers.unique {text : List Char} {q : Nat} {spans : List Span}
    (h : Covers g text q spans) {s : Span} (hs : s ∈ spans) :
    ∃! i, NamedAt (spans.map (·.entry)) (Entry.place g.source (lineAt text s.start)) i := by
  obtain ⟨i, hi⟩ := List.getElem?_of_mem hs
  refine ⟨i, ⟨s.entry, by simp [hi], (h.mem_reads s hs).location⟩, ?_⟩
  rintro j ⟨e, he, hloc⟩
  obtain ⟨s', hj, rfl⟩ : ∃ s', spans[j]? = some s' ∧ s'.entry = e := by simpa using he
  rw [(h.mem_reads s' (List.mem_of_getElem? hj)).location] at hloc
  have hline : lineAt text s'.start = lineAt text s.start :=
    Entry.place_inj (Scalar.text.inj (Option.some.inj hloc))
  have hnodup : (spans.map fun s => lineAt text s.start).Nodup :=
    h.pairwise_line.imp Nat.ne_of_lt
  have hlt : j < (spans.map fun s => lineAt text s.start).length := by
    rw [List.length_map]
    exact (List.getElem?_eq_some_iff.1 hj).1
  refine (List.getElem?_inj hlt hnodup).1 ?_
  rw [List.getElem?_map, List.getElem?_map, hi, hj, Option.map_some, Option.map_some, hline]

end Grammar

namespace Builtin

open Grammar

/-- The entries account for the text: they stand in spans of it, one
behind the other and on lines further and further down, and there is
nothing else but blank lines and comments. In a text with paired quotes
on every line, each line of its own is the line of exactly one entry. -/
structure Accounts (source : String) (text : List Char) (es : List Entry) : Prop where
  spans : ∃ spans : List Span, spans.map (·.entry) = es ∧ Covers (grammar source) text 0 spans ∧
    (spans.map fun s => lineAt text s.start).Pairwise (· < ·)
  lines : Tidy text → ∀ p, StartsLine text p →
    ∃! i, NamedAt es (Entry.place source (lineAt text p)) i

/-- **The entries of a text account for it.** -/
theorem parseText_accounts {text source : String} {es : List Entry}
    (h : parseText text modules source = .ok es) : Accounts source text.toList es := by
  rw [parseText_modules, parse, walk] at h
  have hstart : (Cursor.start source text.toList).advance 0 = .start source text.toList :=
    Cursor.advance_zero _
  cases hw : (grammar source).items (.start source text.toList) with
  | mk items fault =>
      have hitems : (grammar source).items (.start (grammar source).source text.toList) =
          (items, fault) := hw
      rw [hitems] at h
      cases fault with
      | some f => cases h
      | none =>
          cases h
          have hok : ((grammar source).items
              ((Cursor.start source text.toList).advance 0)).2 = none := by rw [hstart, hw]
          obtain ⟨spans, hmap, hcovers⟩ :=
            items_covers (ofShape_grammar source) (boundary_zero _) hok
          have hentries : spans.map (·.entry) = items.map (·.entry) := by
            rw [hmap]
            show ((grammar source).items ((Cursor.start source text.toList).advance 0)).1.map _ = _
            rw [hstart, hw]
          refine ⟨⟨spans, hentries, hcovers, hcovers.pairwise_line⟩, ?_⟩
          intro ht p hp
          obtain ⟨s, hs, rfl⟩ := hcovers.starts ht (Nat.zero_le p) hp
          rw [← hentries]
          exact hcovers.unique hs

/-- A place that the text itself names is not kept. -/
theorem parseText_accounts_close :
    Accounts "books" "\n2024-01-01 close Ab\n  location: 7".toList
      [⟨"2024-01-01", [("location", .text "books:2")],
        .plain "close" [("keyword", .text "close"), ("account", .text "Ab")]⟩] :=
  parseText_accounts (by with_unfolding_all rfl)

end Builtin
end Daybook
