import AwaitGlibc.Tunables

/-!
# The copy while it is rewritten

Between two turns of the loop the copy consists of the pairs written so far and,
behind them, of the original text. A pair is written with room in front of it when
its name is read no earlier than where it goes; the original behind the position
is then still as it was. Each turn passes over a pair or a segment, or adds a pair
to those written, or, without room, takes the offset past the end of the text.
-/
namespace AwaitGlibc.TunablesRewrite
open CText CheckedArray Tunables

def writtenBack (tunables : List Tunable) (name : Text) : Bool :=
  (lookup tunables name).any (·.securityLevel ≠ .sxidErase)

theorem writtenBack_iff {tunables : List Tunable} {name : Text} :
    writtenBack tunables name = true ↔
      ∃ cur, lookup tunables name = some cur ∧ cur.securityLevel ≠ .sxidErase := by
  unfold writtenBack
  cases lookup tunables name with
  | none => simp
  | some cur => simp

/-- A segment with a pair that is written back. -/
def keptSegment (kept : Text → Bool) (segment : Text) : Bool :=
  segment.contains '=' && kept (segment.takeWhile (· != '='))

section Overlay

def join (outs : List Text) : Text := [':'].intercalate outs

def next (outs : List Text) : ℕ := if outs = [] then 0 else (join outs).length + 1

def colon (outs : List Text) : Text := if outs = [] then [] else [':']

theorem join_append_singleton (outs : List Text) (o : Text) :
    join (outs ++ [o]) = join outs ++ (colon outs ++ o) := by
  induction outs with
  | nil => simp [join, colon]
  | cons a outs ih =>
    have hcons : ∀ {os : List Text}, os ≠ [] → join (a :: os) = a ++ [':'] ++ join os :=
      List.intercalate_cons_of_ne_nil
    rw [List.cons_append, hcons (by simp), ih]
    cases outs with
    | nil => simp [join, colon]
    | cons b outs =>
      rw [hcons (by simp)]
      simp [colon]

theorem length_colon (outs : List Text) :
    (join outs).length + (colon outs).length = next outs := by
  unfold next colon
  split_ifs with h
  · simp [h, join]
  · rfl

theorem length_join_append_singleton (outs : List Text) (o : Text) :
    (join (outs ++ [o])).length = next outs + o.length := by
  rw [join_append_singleton, List.length_append, List.length_append, ← length_colon]
  omega

theorem next_append_singleton (outs : List Text) (o : Text) :
    next (outs ++ [o]) = next outs + o.length + 1 := by
  rw [next, if_neg (by simp), length_join_append_singleton]

/-- The copy: what has been written, and behind it the original. -/
def overlay (s : Text) (outs : List Text) : Text := join outs ++ s.drop (join outs).length

variable {s : Text} {outs : List Text}

theorem length_overlay (h : (join outs).length ≤ s.length) : (overlay s outs).length = s.length := by
  simp only [overlay, List.length_append, List.length_drop]
  omega

theorem drop_overlay {i : ℕ} (h : (join outs).length ≤ i) : (overlay s outs).drop i = s.drop i := by
  rw [overlay, List.drop_append, List.drop_eq_nil_of_le h, List.nil_append, List.drop_drop]
  congr 1
  omega

theorem overlay_append_singleton (o : Text) :
    overlay s (outs ++ [o]) = (overlay s outs).take (join outs).length ++ (colon outs ++ o) ++
      (overlay s outs).drop ((join outs).length + (colon outs ++ o).length) := by
  rw [drop_overlay (by omega), overlay, join_append_singleton, List.length_append, overlay,
    List.take_left]

/-- A pair that ends the text, written back with room in front of it: the text
behind its name when it is read again. -/
theorem drop_overlay_append_singleton {p : ℕ} {name v : Text} (hp : next outs ≤ p)
    (htail : s.drop p = name ++ '=' :: v) :
    (overlay s (outs ++ [name ++ '=' :: v])).drop (p + name.length + 1) =
      v.drop (p - next outs) ++ v.drop (v.length - (p - next outs)) := by
  have hjoin : join (outs ++ [name ++ '=' :: v]) =
      (join outs ++ colon outs ++ name ++ ['=']) ++ v := by
    rw [join_append_singleton]
    simp
  have hlength : (join outs ++ colon outs ++ name ++ ['=']).length = next outs + name.length + 1 := by
    rw [List.length_append, List.length_append, List.length_append, length_colon]
    rfl
  have hrest : s.drop (p + name.length + 1) = v := drop_past htail
  rw [overlay, length_join_append_singleton, hjoin, List.append_assoc, List.drop_append,
    List.drop_eq_nil_of_le (by omega), List.nil_append, hlength, List.drop_append,
    show p + name.length + 1 - (next outs + name.length + 1) = p - next outs by omega,
    List.drop_drop]
  congr 1
  calc s.drop _ = s.drop (p + name.length + 1 + (v.length - (p - next outs))) := by
        congr 1
        rw [List.length_append, List.length_cons]
        omega
    _ = v.drop (v.length - (p - next outs)) := by rw [← List.drop_drop, hrest]

end Overlay

section Reading
variable {tunables : List Tunable} {s : Text} {outs : List Text} {σ : Parse}

/-- A pair that may be left to children. -/
structure KeptPair (tunables : List Tunable) (o : Text) : Prop where
  kept : keptSegment (writtenBack tunables) o = true
  no_colon : ':' ∉ o
  no_nul : nul ∉ o

/-- The state between two turns of the loop, when the pairs `outs` have been
written within the copy. -/
structure At (tunables : List Tunable) (s : Text) (outs : List Text) (σ : Parse) : Prop where
  no_nul : nul ∉ s
  tunestr : σ.tunestr = .ofWritten (s.length + 2) (overlay s outs ++ [nul])
  off : σ.off = (join outs).length
  room : (join outs).length ≤ s.length
  p_le : σ.p ≤ s.length
  valstring : ∃ values, σ.valstring = .ofWritten (s.length + 1) values ∧
    values.length = s.length + 1 ∧ values.drop σ.p = (s ++ [nul]).drop σ.p
  kept : ∀ o ∈ outs, KeptPair tunables o

theorem KeptPair.ne_nil {o : Text} (h : KeptPair tunables o) : o ≠ [] := by
  rintro rfl
  cases h.kept

theorem not_mem_join {c : Char} (hc : c ≠ ':') (h : ∀ o ∈ outs, c ∉ o) : c ∉ join outs := by
  induction outs with
  | nil => simp [join]
  | cons a outs ih =>
    cases outs with
    | nil => simpa [join] using h
    | cons b outs =>
      have hrest := ih fun o ho => h o (List.mem_cons_of_mem a ho)
      rw [join, List.intercalate_cons_cons]
      simp only [List.mem_append, List.mem_singleton, not_or]
      exact ⟨⟨h a List.mem_cons_self, hc⟩, hrest⟩

section
variable (h : At tunables s outs σ)
include h

theorem At.no_nul_overlay : nul ∉ overlay s outs := by
  rw [overlay, List.mem_append, not_or]
  exact ⟨not_mem_join (by decide) fun o ho => (h.kept o ho).no_nul,
    fun hc => h.no_nul (List.mem_of_mem_drop hc)⟩

theorem At.drop_written : (overlay s outs ++ [nul]).drop σ.p = (overlay s outs).drop σ.p ++ [nul] :=
  List.drop_append_of_le_length (by rw [length_overlay h.room]; exact h.p_le)

theorem At.off_eq_zero_iff : σ.off = 0 ↔ outs = [] := by
  rw [h.off, List.length_eq_zero_iff]
  constructor
  · intro hjoin
    cases outs with
    | nil => rfl
    | cons a outs =>
      have ha := (h.kept a List.mem_cons_self).ne_nil
      cases outs with
      | nil => exact absurd (by simpa [join] using hjoin) ha
      | cons b outs =>
        rw [join, List.intercalate_cons_cons] at hjoin
        simp at hjoin
  · rintro rfl
    rfl

theorem At.colon_eq : (if 0 < σ.off then [':'] else []) = colon outs := by
  simp only [colon, Nat.pos_iff_ne_zero, ne_eq, h.off_eq_zero_iff, ite_not]

theorem At.move {p : ℕ} (hp : σ.p ≤ p) (hps : p ≤ s.length) :
    At tunables s outs { σ with p := p } := by
  obtain ⟨values, hvalues, hlength, hdrop⟩ := h.valstring
  refine ⟨h.no_nul, h.tunestr, h.off, h.room, hps, ⟨values, hvalues, hlength, ?_⟩, h.kept⟩
  obtain ⟨k, rfl⟩ := Nat.exists_eq_add_of_le hp
  rw [← List.drop_drop, hdrop, List.drop_drop]

end

/-- At the position stands a pair. It ends at a colon or at the end of the copy. -/
structure PairAt (s : Text) (outs : List Text) (σ : Parse) (name v : Text) (d : Char)
    (rest : Text) : Prop where
  tail : (overlay s outs).drop σ.p ++ [nul] = name ++ '=' :: (v ++ d :: rest)
  name_ok : '=' ∉ name ∧ ':' ∉ name ∧ nul ∉ name
  value_ok : ':' ∉ v ∧ nul ∉ v
  ends : endsValue d = true

variable {name v rest : Text} {d : Char}

/-- The position behind the pair, which is that of the value in the last one. -/
def behind (σ : Parse) (name v : Text) (d : Char) : ℕ :=
  if d ≠ nul then σ.p + name.length + 1 + v.length + 1 else σ.p + name.length + 1

theorem PairAt.keptPair (h : PairAt s outs σ name v d rest)
    (hkept : writtenBack tunables name = true) : KeptPair tunables (name ++ '=' :: v) := by
  obtain ⟨hequals, hcolon, hnul⟩ := h.name_ok
  refine ⟨?_, ?_, ?_⟩
  · simp [keptSegment, takeWhile_of_not_mem hequals, hkept]
  · simp [hcolon, h.value_ok.1]
  · simp [hnul, h.value_ok.2, show nul ≠ '=' by decide]

/-- Setting a tunable changes the original at the end of the value only. -/
theorem setTunable_eq (secure : Bool) (cur : Tunable) {values front : Text} {size : ℕ}
    (hvalues : σ.valstring = .ofWritten size values) (hsize : values.length = size)
    (hfront : values = front ++ (v ++ d :: rest)) :
    ∃ c inits, setTunable secure cur front.length (front.length + v.length) σ = .ok { σ with
      valstring := .ofWritten size (front ++ (v ++ c :: rest)), initialized := inits } ∧
      (c = d ∨ c = nul) := by
  have hlength : front.length + v.length + 1 ≤ values.length := by
    rw [hfront]
    simp only [List.length_append, List.length_cons]
    omega
  have hstore : σ.valstring.store (front.length + v.length) nul =
      .ok (.ofWritten size (front ++ (v ++ nul :: rest))) := by
    have htake : values.take (front.length + v.length) = front ++ v := by
      rw [hfront, ← List.append_assoc, List.take_left' (by simp)]
    have hdrop : values.drop (front.length + v.length + 1) = rest :=
      drop_past (by rw [hfront, List.drop_left])
    rw [hvalues, ← Block.storeAll_singleton, Block.storeAll_ofWritten hsize.le hlength, htake,
      List.length_singleton, hdrop]
    simp
  unfold setTunable
  split_ifs with hskip
  · exact ⟨d, σ.initialized, by rw [← hfront, ← hvalues], .inl rfl⟩
  · have hload : Block.loadAll (.ofWritten size (front ++ (v ++ nul :: rest))) front.length
        (front.length + v.length - front.length) = .ok v := by
      rw [Nat.add_sub_cancel_left]
      exact Block.loadAll_ofWritten List.drop_left
    refine ⟨nul, σ.initialized ++ [(cur, v)], ?_, .inr rfl⟩
    simp only [bind, Except.bind, hstore, hload, pure, Except.pure]

theorem parseLoop_eq (hat : At tunables s outs σ) {c : Char}
    (htail : (overlay s outs).drop σ.p ++ [nul] = name ++ c :: rest)
    (hname : '=' ∉ name ∧ ':' ∉ name ∧ nul ∉ name) (hc : endsName c = true) (fuel : ℕ) :
    parseLoop true tunables (fuel + 1) σ =
      if c = nul then σ.tunestr.store σ.off nul >>= fun b => .ok { σ with tunestr := b }
      else if c = ':' then parseLoop true tunables fuel { σ with p := σ.p + name.length + 1 }
      else parsePair true tunables (σ.p + name.length + 1) σ >>= parseLoop true tunables fuel := by
  have hnot : ∀ x ∈ name, endsName x = false := by
    intro x hx
    simp only [endsName, Bool.or_eq_false_iff, decide_eq_false_iff_not]
    exact ⟨⟨fun e => hname.1 (e ▸ hx), fun e => hname.2.1 (e ▸ hx)⟩,
      fun e => hname.2.2 (e ▸ hx)⟩
  have hdrop := hat.drop_written.trans htail
  have hscan : σ.tunestr.scan endsName σ.p = .ok (σ.p + name.length) := by
    rw [hat.tunestr]
    exact Block.scan_ofWritten hdrop hnot hc
  have hload : σ.tunestr.load (σ.p + name.length) = .ok c := by
    rw [hat.tunestr]
    apply Block.load_ofWritten
    rw [← List.head?_drop, ← List.drop_drop, hdrop, List.drop_left]
    rfl
  rw [parseLoop, hscan]
  simp only [bind, Except.bind, hload, if_true]
  rfl

section Pair
variable (h : PairAt s outs σ name v d rest) (hat : At tunables s outs σ)
include h hat

theorem PairAt.drop_value :
    (overlay s outs ++ [nul]).drop (σ.p + name.length + 1) = v ++ d :: rest :=
  drop_past (hat.drop_written.trans h.tail)

theorem PairAt.drop_end :
    (overlay s outs ++ [nul]).drop (σ.p + name.length + 1 + v.length) = d :: rest := by
  rw [← List.drop_drop, h.drop_value hat, List.drop_left]

theorem PairAt.end_eq :
    σ.p + name.length + 1 + v.length + rest.length = s.length := by
  have hlength := congrArg List.length (h.drop_end hat)
  simp only [List.length_drop, List.length_append, length_overlay hat.room, List.length_cons,
    List.length_nil] at hlength
  omega

theorem parsePair_eq :
    parsePair true tunables (σ.p + name.length + 1) σ =
      useFound true (lookup tunables name) (σ.p + name.length + 1)
          (σ.p + name.length + 1 + v.length) σ >>= fun σ' =>
        σ'.tunestr.load (σ.p + name.length + 1 + v.length) >>= fun c =>
          .ok { σ' with p := if c ≠ nul then σ.p + name.length + 1 + v.length + 1
            else σ.p + name.length + 1 } := by
  have hvalue : ∀ c ∈ v, endsValue c = false := by
    intro c hc
    simp only [endsValue, Bool.or_eq_false_iff, decide_eq_false_iff_not]
    exact ⟨fun e => h.value_ok.1 (e ▸ hc), fun e => h.value_ok.2 (e ▸ hc)⟩
  have hname : (overlay s outs ++ [nul]).drop σ.p = name ++ '=' :: (v ++ d :: rest) :=
    hat.drop_written.trans h.tail
  rw [parsePair, hat.tunestr, Block.scan_ofWritten (h.drop_value hat) hvalue h.ends]
  simp only [bind, Except.bind, pure, Except.pure,
    findTunable_eq hname ⟨h.name_ok.1, h.name_ok.2.2⟩]

theorem parsePair_of_not_written (hskip : writtenBack tunables name = false) :
    parsePair true tunables (σ.p + name.length + 1) σ =
      .ok { σ with p := behind σ name v d } := by
  have huse : ∀ value fin, useFound true (lookup tunables name) value fin σ = .ok σ := by
    intro value fin
    unfold writtenBack at hskip
    cases hfound : lookup tunables name with
    | none => rfl
    | some cur =>
      rw [hfound] at hskip
      have hlevel : cur.securityLevel = .sxidErase := by simpa using hskip
      simp [useFound, keepPair, setTunable, hlevel, bind, Except.bind]
  have hload : σ.tunestr.load (σ.p + name.length + 1 + v.length) = .ok d := by
    rw [hat.tunestr]
    apply Block.load_ofWritten
    rw [← List.head?_drop, h.drop_end hat]
    rfl
  rw [parsePair_eq h hat, huse]
  simp only [bind, Except.bind, hload, behind]

theorem PairAt.drop_original (hroom : next outs ≤ σ.p) :
    (s ++ [nul]).drop σ.p = name ++ '=' :: (v ++ d :: rest) := by
  have hjoin := length_colon outs
  rw [List.drop_append_of_le_length hat.p_le, ← h.tail, drop_overlay (by omega)]

theorem writeBack_eq (hroom : next outs ≤ σ.p) {cur : Tunable} (hcur : cur.name = name) :
    writeBack cur (σ.p + name.length + 1) (σ.p + name.length + 1 + v.length) σ = .ok { σ with
      tunestr := .ofWritten (s.length + 2) (overlay s (outs ++ [name ++ '=' :: v]) ++ [nul])
      off := (join (outs ++ [name ++ '=' :: v])).length } := by
  obtain ⟨values, hvalues, -, hdrop⟩ := hat.valstring
  have hend := h.end_eq hat
  have hv : values.drop (σ.p + name.length + 1) = v ++ d :: rest :=
    drop_past (hdrop.trans (h.drop_original hat hroom))
  have hlength : (join outs).length + (colon outs ++ (name ++ '=' :: v)).length ≤ s.length := by
    have hnext := length_colon outs
    simp only [List.length_append, List.length_cons]
    omega
  have hload : σ.valstring.loadAll (σ.p + name.length + 1)
      (σ.p + name.length + 1 + v.length - (σ.p + name.length + 1)) = .ok v := by
    rw [hvalues, Nat.add_sub_cancel_left]
    exact Block.loadAll_ofWritten hv
  have hstore : σ.tunestr.storeAll σ.off (colon outs ++ (name ++ '=' :: v)) =
      .ok (.ofWritten (s.length + 2) (overlay s (outs ++ [name ++ '=' :: v]) ++ [nul])) := by
    have hoverlay := length_overlay hat.room
    have hwritten : (overlay s outs ++ [nul]).length = s.length + 1 := by
      rw [List.length_append, hoverlay, List.length_singleton]
    rw [hat.tunestr, hat.off, Block.storeAll_ofWritten (by omega) (by omega),
      overlay_append_singleton, List.take_append_of_le_length (by omega),
      List.drop_append_of_le_length (by omega)]
    simp only [List.append_assoc]
  simp only [writeBack, bind, Except.bind, hload, hat.colon_eq, hcur, List.append_assoc, hstore,
    pure, Except.pure]
  rw [hat.off, join_append_singleton, ← List.length_append]

theorem PairAt.behind_le :
    σ.p ≤ behind σ name v d ∧ behind σ name v d ≤ s.length := by
  have hend := h.end_eq hat
  unfold behind
  split_ifs with hd
  · refine ⟨by omega, ?_⟩
    by_contra hlt
    -- at the end of the copy stands its NUL
    have hlast : σ.p + name.length + 1 + v.length = (overlay s outs).length := by
      rw [length_overlay hat.room]
      omega
    have hdrop := h.drop_end hat
    rw [hlast, List.drop_left] at hdrop
    exact hd (List.cons.inj hdrop).1.symm
  · exact ⟨by omega, by omega⟩

theorem useFound_of_written (hkept : writtenBack tunables name = true) (hroom : next outs ≤ σ.p) :
    ∃ σ', useFound true (lookup tunables name) (σ.p + name.length + 1)
        (σ.p + name.length + 1 + v.length) σ = .ok σ' ∧
      σ'.tunestr = .ofWritten (s.length + 2) (overlay s (outs ++ [name ++ '=' :: v]) ++ [nul]) ∧
      σ'.off = (join (outs ++ [name ++ '=' :: v])).length ∧
      ∃ values, σ'.valstring = .ofWritten (s.length + 1) values ∧
        values.length = s.length + 1 ∧
        values.drop (behind σ name v d) = (s ++ [nul]).drop (behind σ name v d) := by
  obtain ⟨cur, hfound, hlevel⟩ := writtenBack_iff.mp hkept
  have hcur : cur.name = name := by simpa using List.find?_some hfound
  obtain ⟨values, hvalues, hlength, hdrop⟩ := hat.valstring
  have hend := h.end_eq hat
  have horiginal : (s ++ [nul]).drop (σ.p + name.length + 1) = v ++ d :: rest :=
    drop_past (h.drop_original hat hroom)
  obtain ⟨front, hfront, hfrontLength⟩ : ∃ front, values = front ++ (v ++ d :: rest) ∧
      front.length = σ.p + name.length + 1 := by
    refine ⟨values.take (σ.p + name.length + 1), ?_, by rw [List.length_take]; omega⟩
    rw [← horiginal, Nat.add_assoc, ← List.drop_drop, ← hdrop, List.drop_drop,
      List.take_append_drop]
  obtain ⟨c, inits, hset, hc⟩ := setTunable_eq (σ := { σ with
      tunestr := .ofWritten (s.length + 2) (overlay s (outs ++ [name ++ '=' :: v]) ++ [nul])
      off := (join (outs ++ [name ++ '=' :: v])).length }) true cur hvalues hlength hfront
  rw [hfrontLength] at hset
  refine ⟨_, Eq.trans ?_ hset, rfl, rfl, front ++ (v ++ c :: rest), rfl, ?_, ?_⟩
  · rw [hfound, useFound, keepPair, if_pos ⟨rfl, hlevel⟩, writeBack_eq h hat hroom hcur]
    rfl
  · rw [← hlength, hfront]
    simp
  · unfold behind
    split_ifs with hd
    · have hvalues' : (front ++ (v ++ c :: rest)).drop (σ.p + name.length + 1) =
          v ++ c :: rest := by rw [← hfrontLength, List.drop_left]
      rw [drop_past hvalues', drop_past horiginal]
    · have hcd : c = d := hc.elim id fun h => h.trans (not_not.mp hd).symm
      rw [horiginal, hcd, ← hfrontLength, List.drop_left]

theorem parsePair_of_written (hkept : writtenBack tunables name = true) (hroom : next outs ≤ σ.p) :
    ∃ σ', parsePair true tunables (σ.p + name.length + 1) σ = .ok σ' ∧
      At tunables s (outs ++ [name ++ '=' :: v]) σ' ∧ σ'.p = behind σ name v d := by
  have hend : σ.p + name.length + 1 + v.length ≤ s.length := Nat.le.intro (h.end_eq hat)
  have hjoin : (join (outs ++ [name ++ '=' :: v])).length ≤ σ.p + name.length + 1 + v.length := by
    rw [length_join_append_singleton, List.length_append, List.length_cons]
    omega
  obtain ⟨σ', huse, htunestr, hoff, hvalstring⟩ := useFound_of_written h hat hkept hroom
  have hload : σ'.tunestr.load (σ.p + name.length + 1 + v.length) = .ok d := by
    have hjoin' : (join outs).length ≤ σ.p + name.length + 1 + v.length := by
      have := length_colon outs
      omega
    rw [htunestr]
    apply Block.load_ofWritten
    rw [← List.head?_drop, List.drop_append_of_le_length
      (by rw [length_overlay (hjoin.trans hend)]; exact hend), drop_overlay hjoin,
      ← drop_overlay hjoin', ← List.drop_append_of_le_length
      (by rw [length_overlay hat.room]; exact hend), h.drop_end hat]
    rfl
  refine ⟨{ σ' with p := behind σ name v d }, ?_, ?_, rfl⟩
  · rw [parsePair_eq h hat, huse]
    simp only [bind, Except.bind, hload]
    rfl
  · refine ⟨hat.no_nul, htunestr, hoff, hjoin.trans hend, (h.behind_le hat).2, hvalstring, ?_⟩
    intro o ho
    rcases List.mem_append.mp ho with ho | ho
    · exact hat.kept o ho
    · rw [List.mem_singleton.mp ho]
      exact h.keptPair hkept

theorem parseLoop_pair (fuel : ℕ) :
    parseLoop true tunables (fuel + 1) σ =
      parsePair true tunables (σ.p + name.length + 1) σ >>= parseLoop true tunables fuel := by
  rw [parseLoop_eq hat h.tail h.name_ok rfl, if_neg (by decide), if_neg (by decide)]

theorem parseLoop_of_written (hkept : writtenBack tunables name = true) (hroom : next outs ≤ σ.p)
    (fuel : ℕ) :
    ∃ σ', parseLoop true tunables (fuel + 1) σ = parseLoop true tunables fuel σ' ∧
      At tunables s (outs ++ [name ++ '=' :: v]) σ' ∧ σ'.p = behind σ name v d := by
  obtain ⟨σ', hrun, hat', hp⟩ := parsePair_of_written h hat hkept hroom
  refine ⟨σ', ?_, hat', hp⟩
  rw [parseLoop_pair h hat, hrun]
  rfl

theorem parseLoop_of_not_written (hskip : ¬ writtenBack tunables name = true) (fuel : ℕ) :
    ∃ σ', parseLoop true tunables (fuel + 1) σ = parseLoop true tunables fuel σ' ∧
      At tunables s outs σ' ∧ σ'.p = behind σ name v d := by
  obtain ⟨hlow, hhigh⟩ := h.behind_le hat
  refine ⟨{ σ with p := behind σ name v d }, ?_, hat.move hlow hhigh, rfl⟩
  rw [parseLoop_pair h hat, parsePair_of_not_written h hat (Bool.eq_false_iff.mpr hskip)]
  rfl

end Pair

theorem parseLoop_of_colon (hat : At tunables s outs σ)
    (htail : (overlay s outs).drop σ.p = name ++ ':' :: rest)
    (hname : '=' ∉ name ∧ ':' ∉ name ∧ nul ∉ name) (fuel : ℕ) :
    ∃ σ', parseLoop true tunables (fuel + 1) σ = parseLoop true tunables fuel σ' ∧
      At tunables s outs σ' ∧ σ'.p = σ.p + name.length + 1 := by
  have hwritten : (overlay s outs).drop σ.p ++ [nul] = name ++ ':' :: (rest ++ [nul]) := by
    rw [htail, List.append_assoc, List.cons_append]
  have hlength := congrArg List.length htail
  rw [List.length_drop, length_overlay hat.room, List.length_append, List.length_cons] at hlength
  refine ⟨{ σ with p := σ.p + name.length + 1 }, ?_, hat.move (by omega) (by omega), rfl⟩
  rw [parseLoop_eq hat hwritten hname rfl, if_neg (by decide), if_pos rfl]

/-- A segment before the last: it is written back or leaves room. -/
theorem parseLoop_segment {segment : Text} (hat : At tunables s outs σ) (hroom : next outs ≤ σ.p)
    (htail : s.drop σ.p = segment ++ ':' :: rest) (hcolon : ':' ∉ segment) (fuel : ℕ) :
    ∃ outs' σ', outs' = outs ++ [segment].filter (keptSegment (writtenBack tunables)) ∧
      parseLoop true tunables (fuel + 1) σ = parseLoop true tunables fuel σ' ∧
      At tunables s outs' σ' ∧ σ'.p = σ.p + segment.length + 1 ∧ next outs' ≤ σ'.p ∧
      (σ'.p : ℤ) - next outs' = if keptSegment (writtenBack tunables) segment
        then (σ.p : ℤ) - next outs else σ.p - next outs + segment.length + 1 := by
  have hjoin := length_colon outs
  have hoverlay : (overlay s outs).drop σ.p = segment ++ ':' :: rest := by
    rw [drop_overlay (by omega), htail]
  have hnul : nul ∉ segment := fun h => hat.no_nul_overlay
    (List.mem_of_mem_drop (hoverlay ▸ List.mem_append_left _ h))
  by_cases hequals : '=' ∈ segment
  · obtain ⟨name, v, rfl, hname⟩ := List.eq_append_cons_of_mem hequals
    have hpair : PairAt s outs σ name v ':' (rest ++ [nul]) := by
      simp only [List.mem_append, List.mem_cons, not_or] at hcolon hnul
      exact ⟨by rw [hoverlay]; simp, ⟨hname, hcolon.1, hnul.1⟩, ⟨hcolon.2.2, hnul.2.2⟩, rfl⟩
    have hbehind : behind σ name v ':' = σ.p + (name ++ '=' :: v).length + 1 := by
      rw [behind, if_pos (by decide), List.length_append, List.length_cons]
      omega
    have hsegment : keptSegment (writtenBack tunables) (name ++ '=' :: v) =
        writtenBack tunables name := by
      simp [keptSegment, takeWhile_of_not_mem hname]
    simp only [hsegment, List.filter_cons, List.filter_nil]
    by_cases hkept : writtenBack tunables name = true
    · obtain ⟨σ', hrun, hat', hp'⟩ := parseLoop_of_written hpair hat hkept hroom fuel
      rw [hbehind] at hp'
      have hnext := next_append_singleton outs (name ++ '=' :: v)
      exact ⟨_, σ', by rw [if_pos hkept], hrun, hat', hp', by omega, by rw [if_pos hkept]; omega⟩
    · obtain ⟨σ', hrun, hat', hp'⟩ := parseLoop_of_not_written hpair hat hkept fuel
      rw [hbehind] at hp'
      exact ⟨outs, σ', by simp [hkept], hrun, hat', hp', by omega, by rw [if_neg hkept]; omega⟩
  · obtain ⟨σ', hrun, hat', hp'⟩ := parseLoop_of_colon hat hoverlay ⟨hequals, hcolon, hnul⟩ fuel
    have hsegment : keptSegment (writtenBack tunables) segment = false := by
      simp [keptSegment, hequals]
    refine ⟨outs, σ', by simp [hsegment], hrun, hat', hp', by omega, ?_⟩
    rw [hsegment, if_neg Bool.false_ne_true]
    omega

def cText (b : Block Char) : Text := (b.cells.takeWhile (· ≠ some nul)).filterMap id

theorem cText_ofWritten {t : Text} (h : nul ∉ t) (n : ℕ) (rest : Text) :
    cText (.ofWritten n (t ++ nul :: rest)) = t := by
  have hcells : ∀ c ∈ t.map some, decide (c ≠ some nul) = true := by
    intro c hc
    obtain ⟨x, hx, rfl⟩ := List.mem_map.mp hc
    simpa using fun e : x = nul => h (e ▸ hx)
  rw [cText, Block.ofWritten, List.map_append, List.append_assoc,
    List.takeWhile_append_of_pos hcells]
  simp

/-- At the end of the copy the pairs written so far are closed with a NUL. -/
theorem parseLoop_end (hat : At tunables s outs σ)
    (htail : '=' ∉ (overlay s outs).drop σ.p ∧ ':' ∉ (overlay s outs).drop σ.p) (fuel : ℕ) :
    ∃ σ', parseLoop true tunables (fuel + 1) σ = .ok σ' ∧ σ'.off = (join outs).length ∧
      cText σ'.tunestr = join outs := by
  have hnul : nul ∉ (overlay s outs).drop σ.p := fun h =>
    hat.no_nul_overlay (List.mem_of_mem_drop h)
  have hlength := length_overlay hat.room
  have hstore : σ.tunestr.store σ.off nul = .ok (.ofWritten (s.length + 2)
      (join outs ++ nul :: (overlay s outs ++ [nul]).drop ((join outs).length + 1))) := by
    have hroom := hat.room
    rw [hat.tunestr, hat.off, ← Block.storeAll_singleton,
      Block.storeAll_ofWritten (by simp; omega) (by simp; omega),
      List.take_append_of_le_length (by omega)]
    simp [overlay]
  rw [parseLoop_eq hat rfl ⟨htail.1, htail.2, hnul⟩ rfl, if_pos rfl, hstore]
  refine ⟨_, rfl, hat.off, cText_ofWritten ?_ _ _⟩
  exact not_mem_join (by decide) fun o ho => (hat.kept o ho).no_nul

/-- The pair that the last segment starts with, wherever it is read. -/
theorem At.exists_pairAt (hat : At tunables s outs σ) (hcolon : ':' ∉ (overlay s outs).drop σ.p)
    (hequals : '=' ∈ (overlay s outs).drop σ.p) :
    ∃ name v, (overlay s outs).drop σ.p = name ++ '=' :: v ∧ PairAt s outs σ name v nul [] := by
  obtain ⟨name, v, htail, hname⟩ := List.eq_append_cons_of_mem hequals
  have hnul : nul ∉ (overlay s outs).drop σ.p := fun h =>
    hat.no_nul_overlay (List.mem_of_mem_drop h)
  rw [htail] at hcolon hnul
  simp only [List.mem_append, List.mem_cons, not_or] at hcolon hnul
  exact ⟨name, v, htail, by rw [htail]; simp, ⟨hname, hcolon.1, hnul.1⟩,
    ⟨hcolon.2.2, hnul.2.2⟩, rfl⟩

section Last
variable (h : PairAt s outs σ name v nul []) (hat : At tunables s outs σ)
  (htail : (overlay s outs).drop σ.p = name ++ '=' :: v)
include h hat htail

/-- The last pair is passed over, and its value is read next. -/
theorem parseLoop_last_of_not_written (hskip : ¬ writtenBack tunables name = true) (fuel : ℕ) :
    ∃ σ', parseLoop true tunables (fuel + 1) σ = parseLoop true tunables fuel σ' ∧
      At tunables s outs σ' ∧ σ'.p = σ.p + name.length + 1 ∧ (overlay s outs).drop σ'.p = v := by
  obtain ⟨σ', hrun, hat', hp⟩ := parseLoop_of_not_written h hat hskip fuel
  rw [behind, if_neg fun hd => hd rfl] at hp
  exact ⟨σ', hrun, hat', hp, by rw [hp, drop_past htail]⟩

/-- The last pair is written back with room in front of it; what is read next is its
value, moved. -/
theorem parseLoop_last_of_written (hkept : writtenBack tunables name = true)
    (hroom : next outs ≤ σ.p) (fuel : ℕ) :
    ∃ σ', parseLoop true tunables (fuel + 1) σ = parseLoop true tunables fuel σ' ∧
      At tunables s (outs ++ [name ++ '=' :: v]) σ' ∧ σ'.p = σ.p + name.length + 1 ∧
      (overlay s (outs ++ [name ++ '=' :: v])).drop σ'.p =
        v.drop (σ.p - next outs) ++ v.drop (v.length - (σ.p - next outs)) := by
  obtain ⟨σ', hrun, hat', hp⟩ := parseLoop_of_written h hat hkept hroom fuel
  rw [behind, if_neg fun hd => hd rfl] at hp
  have hjoin := length_colon outs
  rw [drop_overlay (by omega)] at htail
  exact ⟨σ', hrun, hat', hp, by rw [hp, drop_overlay_append_singleton hroom htail]⟩

end Last

/-- What is written back without room covers the NUL and is none itself. -/
theorem load_ne_nul_of_no_room (h : PairAt s outs σ name v nul []) (hat : At tunables s outs σ)
    (hroom : σ.p < next outs) {b : Block Char}
    (hb : σ.tunestr.storeAll σ.off
      (colon outs ++ name ++ '=' :: s.drop (σ.p + name.length + 1)) = .ok b)
    {j : ℕ} (hj : s.length ≤ j) : b.load j ≠ .ok nul := by
  have hend : σ.p + name.length + 1 + v.length = s.length := h.end_eq hat
  have hnext := length_colon outs
  have hroom' := hat.room
  have hlength : (overlay s outs ++ [nul]).length = s.length + 1 := by
    rw [List.length_append, length_overlay hat.room, List.length_singleton]
  have hpair : nul ∉ colon outs ++ name ++ '=' :: s.drop (σ.p + name.length + 1) := by
    have hdrop : nul ∉ s.drop (σ.p + name.length + 1) := fun hm =>
      hat.no_nul (List.mem_of_mem_drop hm)
    have hcolon : nul ∉ colon outs := by
      unfold colon
      split_ifs <;> decide
    simp [hcolon, h.name_ok.2.2, hdrop, show nul ≠ '=' by decide]
  have hfits : s.length + 1 ≤ σ.off + (colon outs ++ name ++ '=' ::
      s.drop (σ.p + name.length + 1)).length := by
    simp only [List.length_append, List.length_cons, List.length_drop, hat.off]
    omega
  refine Block.load_ne_of_storeAll hb hpair (by rw [hat.off]; omega) fun hpast => ?_
  obtain ⟨f, hf⟩ := Block.load_ofWritten_past (n := s.length + 2) (i := j)
    (show (overlay s outs ++ [nul]).length ≤ j by omega)
  rw [hat.tunestr, hf]
  exact nofun

/-- A pair at the end that is written back without room takes the place of the NUL. -/
theorem parseLoop_of_no_room (h : PairAt s outs σ name v nul []) (hat : At tunables s outs σ)
    (hkept : writtenBack tunables name = true) (hroom : σ.p < next outs) (fuel : ℕ) (σ' : Parse) :
    parseLoop true tunables (fuel + 1) σ ≠ .ok σ' := by
  intro hrun
  obtain ⟨cur, hfound, hlevel⟩ := writtenBack_iff.mp hkept
  have hcur : cur.name = name := by simpa using List.find?_some hfound
  have hend : σ.p + name.length + 1 + v.length = s.length := h.end_eq hat
  rw [parseLoop_pair h hat] at hrun
  obtain ⟨σ₁, hpair, hloop⟩ := ok_of_bind hrun
  rw [parsePair_eq h hat, hfound] at hpair
  obtain ⟨σ₂, huse, hpair⟩ := ok_of_bind hpair
  obtain ⟨c, hc, hpair⟩ := ok_of_bind hpair
  cases hpair
  obtain ⟨σ₃, hkeep, hset⟩ := ok_of_bind huse
  rw [keepPair, if_pos ⟨rfl, hlevel⟩] at hkeep
  obtain ⟨v', hv, hkeep⟩ := ok_of_bind hkeep
  obtain ⟨b, hb, hkeep⟩ := ok_of_bind hkeep
  cases hkeep
  have htunestr : σ₂.tunestr = b := setTunable_tunestr hset
  -- the value is taken from the original, where it reaches the end of the text
  obtain ⟨values, hvalues, -, hdrop⟩ := hat.valstring
  have hvalue : values.drop (σ.p + name.length + 1) = s.drop (σ.p + name.length + 1) ++ [nul] := by
    rw [Nat.add_assoc, ← List.drop_drop, hdrop, List.drop_drop,
      List.drop_append_of_le_length (by omega)]
  have hload := Block.loadAll_ofWritten (n := s.length + 1) hvalue
  rw [List.length_drop, ← hvalues,
    show s.length - (σ.p + name.length + 1) = v.length by omega] at hload
  rw [Nat.add_sub_cancel_left, hload, Except.ok.injEq] at hv
  subst hv
  rw [hat.colon_eq, hcur] at hb
  have hsize : σ.tunestr.size = s.length + 2 := by
    rw [hat.tunestr, Block.size_ofWritten]
    rw [List.length_append, length_overlay hat.room, List.length_singleton]
    omega
  have hcells : ∀ j, s.length ≤ j → b.load j ≠ .ok nul := fun j hj =>
    load_ne_nul_of_no_room h hat hroom hb hj
  have hp : (if c ≠ nul then σ.p + name.length + 1 + v.length + 1 else σ.p + name.length + 1) =
      s.length + 1 := by
    rw [if_pos, hend]
    rintro rfl
    rw [htunestr, hend] at hc
    exact hcells _ le_rfl hc
  refine parseLoop_stuck ?_ (fun j hj => ?_) fuel hloop
  · dsimp only
    rw [htunestr, Block.size_of_storeAll hb, hsize, hp]
  · dsimp only at hj ⊢
    rw [hp] at hj
    rw [htunestr]
    exact hcells j (by omega)

end Reading

end AwaitGlibc.TunablesRewrite
