import LuaTyping.Proofs.Syntax.Sketch
import LuaTyping.Proofs.Syntax.Sound.Expression
import LuaTyping.Proofs.Syntax.Total.Program

/-!
# Programs read without faults

Every form of statement is read as the parts of its phrase (`IsForm`), so a statement on top of a
level that is sound is sound, and with it every level (`level_sound`).

* `Program.exists_phrases`: a program without faults is the phrase of a list of statements.
-/

namespace LuaTyping

open Phrase (key value ofName leaf exprList Spans commaTail commaList)

/-! ## Statements -/

section Statements

open Step

variable {L : Level Sketch Outline} {i j k : Nat} {ts us vs : List Token} {o : Outline}
  {os done : List Outline} {kind : NodeKind} {children : List Outline}

theorem reads_attrib (h : Reads Grammar.attrib i (.less :: ts) o j us) :
    Spans [.group .attrib [key .less, key .name, key .greater]] i (.less :: ts) [o] j us := by
  simp only [Grammar.attrib, reads_here_bind, reads_bump_bind, reads_expect_bind,
    reads_finish] at h
  obtain ⟨us, rfl, us, rfl, rfl, rfl, rfl⟩ := h
  exact (((Spans.key .greater).after .name).after .less).plain .attrib rfl (by decide)

/-- One name of a `local` statement with its attribute, and the comma behind it. -/
theorem localName_sound {done' : List Outline} {again : Bool}
    (h : Reads (do
      if ← Step.at? .less then
        let a ← Grammar.attrib
        let done ← pure (a :: Outline.leaf .nameDef i :: done)
        let more ← Step.accept .comma
        pure (done, more)
      else
        let done ← pure (Outline.leaf .nameDef i :: done)
        let more ← Step.accept .comma
        pure (done, more)) (i + 1) ts (done', again) j us) :
    ∃ n os j' us', Spans (Phrase.localName n) i (.name :: ts) os j' us' ∧ done' = os.reverse ++ done
      ∧ ((again = true ∧ us' = .comma :: us ∧ j = j' + 1)
        ∨ (again = false ∧ us' = us ∧ j' = j)) := by
  have name {ts : List Token} :
      Spans [ofName .nameDef ⟨Token.name.word, rfl⟩] i (.name :: ts)
        [.leaf .nameDef i] (i + 1) ts :=
    .name .nameDef rfl (by decide)
  have ends {r : List Outline} {j' : Nat} {us' : List Token}
      (h : Reads (do
        let done ← pure (r.reverse ++ done)
        let more ← Step.accept .comma
        pure (done, more)) j' us' (done', again) j us) :
      done' = r.reverse ++ done ∧ ((again = true ∧ us' = .comma :: us ∧ j = j' + 1)
        ∨ (again = false ∧ us' = us ∧ j' = j)) := by
    rw [reads_pure_bind, reads_accept_bind] at h
    obtain ⟨us, rfl, h⟩ | ⟨-, h⟩ := h
    · obtain ⟨eq, rfl, rfl⟩ := reads_pure.mp h
      obtain ⟨rfl, rfl⟩ := Prod.mk.inj eq
      exact ⟨rfl, .inl ⟨rfl, rfl, rfl⟩⟩
    · obtain ⟨eq, rfl, rfl⟩ := reads_pure.mp h
      obtain ⟨rfl, rfl⟩ := Prod.mk.inj eq
      exact ⟨rfl, .inr ⟨rfl, rfl, rfl⟩⟩
  rw [reads_at?_bind] at h
  split at h
  · next found =>
    obtain ⟨ts, rfl⟩ := List.head?_eq_some_iff.mp (eq_of_beq found)
    obtain ⟨a, j', us', read, h⟩ := reads_bind.mp h
    obtain ⟨eq, stop⟩ := ends (r := [.leaf .nameDef i, a]) h
    exact ⟨⟨⟨Token.name.word, rfl⟩, some ⟨Token.name.word, rfl⟩⟩, _, j', us',
      name.append (reads_attrib read), eq, stop⟩
  · obtain ⟨eq, stop⟩ := ends (r := [.leaf .nameDef i]) h
    exact ⟨⟨⟨Token.name.word, rfl⟩, none⟩, _, i + 1, ts, name, eq, stop⟩

theorem localNames_sound (h : Reads Grammar.localNames i ts os k vs) :
    ∃ n ns os', Spans (Phrase.localName n ++ Phrase.localNamesTail ns) i ts os' k vs
      ∧ os = os'.reverse ++ [] := by
  rw [Grammar.localNames] at h
  refine h.iterate_induction (P := fun done i ts => ∃ n ns os',
    Spans (Phrase.localName n ++ Phrase.localNamesTail ns) i ts os' k vs
      ∧ os = os'.reverse ++ done) ?_ ?_
  · intro done i ts again h stop
    rw [Grammar.localName, reads_leafOf?_bind] at h
    obtain ⟨us, rfl, h⟩ := h
    obtain ⟨n, os', j, us, spans, rfl, ⟨rfl, rfl, rfl⟩ | ⟨rfl, rfl, rfl⟩⟩ := localName_sound h
    · have := spans.le
      exact absurd ⟨rfl, by omega⟩ stop
    · refine ⟨n, [], os', ?_, rfl⟩
      rw [Phrase.localNamesTail, List.append_nil]
      exact spans
  · intro done i ts done' j us h advanced ih
    rw [Grammar.localName, reads_leafOf?_bind] at h
    obtain ⟨us, rfl, h⟩ := h
    obtain ⟨n, os', j, us, spans, rfl, ⟨-, rfl, rfl⟩ | ⟨stops, -, -⟩⟩ := localName_sound h
    · obtain ⟨m, ns, os'', others, rfl⟩ := ih
      refine ⟨n, m :: ns, os' ++ os'', spans.append (others.after .comma), ?_⟩
      rw [List.reverse_append, List.append_assoc]
    · exact absurd stops (by decide)

/-- The parts of a statement of a kind. -/
def IsForm (kind : NodeKind) (parts : List Phrase) : Prop :=
  ∃ s : Stat, s.phrase = .group kind parts

theorem localStat_sound (sound : L.Sound)
    (h : Reads (Grammar.localStat L) (i + 1) ts (kind, children) k vs) :
    ∃ parts, IsForm kind parts ∧ Spans parts i (.localKw :: ts) children k vs := by
  simp only [Grammar.localStat, reads_here_bind] at h
  obtain ⟨names, j, us, read, h⟩ := reads_bind.mp h
  obtain ⟨n, ns, os, spans, rfl⟩ := localNames_sound read
  have list : Spans [.group .nameList (Phrase.localName n ++ Phrase.localNamesTail ns)] (i + 1) ts
      [.wrap .nameList os (Mark.start (i + 1))] j us :=
    Spans.wrap spans .nameList _ (row_localNames n ns) (Phrase.leaf_plain _ rfl (by decide)) rfl
      (by decide)
  rw [List.append_nil, List.reverse_reverse, reads_wrap_bind, reads_accept_bind] at h
  obtain ⟨us, rfl, h⟩ | ⟨-, h⟩ := h
  · rw [if_pos rfl] at h
    obtain ⟨values, j', us', read, h⟩ := reads_bind.mp h
    obtain ⟨eq, rfl, rfl⟩ := reads_pure.mp h
    obtain ⟨rfl, rfl⟩ := Prod.mk.inj eq
    obtain ⟨e, es, values⟩ := exprList_sound sound read
    exact ⟨_, ⟨.locals n ns (e :: es), rfl⟩, (list.append (values.after .assign)).after .localKw⟩
  · obtain ⟨eq, rfl, rfl⟩ := reads_pure.mp h
    obtain ⟨rfl, rfl⟩ := Prod.mk.inj eq
    exact ⟨_, ⟨.locals n ns [], rfl⟩, list.after .localKw⟩

theorem localFuncStat_sound (sound : L.Sound)
    (h : Reads (Grammar.localFuncStat L) (i + 1 + 1) ts (kind, children) k vs) :
    ∃ parts, IsForm kind parts ∧
      Spans parts i (.localKw :: .functionKw :: ts) children k vs := by
  rw [Grammar.localFuncStat, reads_leafOf?_bind] at h
  obtain ⟨us, rfl, h⟩ := h
  obtain ⟨body, j, us, read, h⟩ := reads_bind.mp h
  obtain ⟨eq, rfl, rfl⟩ := reads_pure.mp h
  obtain ⟨rfl, rfl⟩ := Prod.mk.inj eq
  obtain ⟨ps, ss, spans⟩ := funcBody_sound sound read
  have name := (Spans.name .nameDef rfl (by decide)).append spans
  exact ⟨_, ⟨.localFunction ⟨Token.name.word, rfl⟩ ps ss, rfl⟩,
    (name.after .functionKw).after .localKw⟩

theorem funcName_sound (h : Reads Grammar.funcName i ts o k vs) :
    ∃ n : FuncName, Spans [.funcName n] i ts [o] k vs := by
  simp only [Grammar.funcName, reads_here_bind, reads_leafOf?_bind] at h
  obtain ⟨us, rfl, h⟩ := h
  obtain ⟨os, j, us', loop, h⟩ := reads_bind.mp h
  obtain ⟨fs, os', fields, rfl⟩ : ∃ (fs : List Name) (os' : List Outline),
      Spans (fs.flatMap fun f => [key .dot, ofName .name f]) (i + 1) us os' j us'
        ∧ os = os'.reverse ++ [.leaf .nameExpr i] := by
    refine iterate_sound ?_ loop
    intro done i ts done' again j us h
    rw [Grammar.funcField, reads_accept_bind] at h
    obtain ⟨us, rfl, h⟩ | ⟨-, h⟩ := h
    · rw [if_pos rfl, reads_leafOf?_bind] at h
      obtain ⟨us, rfl, h⟩ := h
      obtain ⟨eq, rfl, rfl⟩ := reads_pure.mp h
      obtain ⟨rfl, -⟩ := Prod.mk.inj eq
      exact .inl ⟨⟨Token.name.word, rfl⟩, [.leaf .name (i + 1)],
        (Spans.name .name rfl (by decide)).after .dot, rfl⟩
    · obtain ⟨eq, rfl, rfl⟩ := reads_pure.mp h
      obtain ⟨rfl, rfl⟩ := Prod.mk.inj eq
      exact .inr ⟨rfl, rfl, rfl, rfl⟩
  have base : Spans [ofName .nameExpr ⟨Token.name.word, rfl⟩] i (.name :: us)
      [.leaf .nameExpr i] (i + 1) us := .name .nameExpr rfl (by decide)
  have name {ps : List Phrase} {os : List Outline} {l : Nat} {ws : List Token}
      (spans : Spans ps j us' os l ws)
      (row : Phrase.Row (ofName .nameExpr ⟨Token.name.word, rfl⟩
        :: (fs.flatMap (fun f => [key .dot, ofName .name f]) ++ ps))) :
      Spans [.group .funcName (ofName .nameExpr ⟨Token.name.word, rfl⟩
          :: (fs.flatMap (fun f => [key .dot, ofName .name f]) ++ ps))] i (.name :: us)
        [.wrap .funcName ([.leaf .nameExpr i] ++ (os' ++ os)) (Mark.start i)] l ws :=
    Spans.wrap (base.append (fields.append spans)) .funcName _ row
      (Phrase.leaf_plain _ rfl (by decide)) rfl (by decide)
  rw [List.reverse_append, List.reverse_reverse, List.reverse_singleton, reads_accept_bind] at h
  obtain ⟨ws, rfl, h⟩ | ⟨-, h⟩ := h
  · rw [if_pos rfl, reads_leafOf?_bind] at h
    obtain ⟨ws, rfl, h⟩ := h
    obtain ⟨rfl, rfl, rfl⟩ := reads_wrap.mp h
    refine ⟨⟨⟨Token.name.word, rfl⟩, fs, some ⟨Token.name.word, rfl⟩⟩, ?_⟩
    rw [List.append_assoc]
    exact name ((Spans.name .methodName rfl (by decide)).after .colon)
      (row_funcName ⟨_, fs, some _⟩)
  · rw [if_neg (by decide), reads_pure_bind] at h
    obtain ⟨rfl, rfl, rfl⟩ := reads_wrap.mp h
    refine ⟨⟨⟨Token.name.word, rfl⟩, fs, none⟩, ?_⟩
    rw [List.append_assoc]
    exact name (Phrase.spans_nil.mpr ⟨rfl, rfl, rfl⟩) (row_funcName ⟨_, fs, none⟩)

theorem funcStat_sound (sound : L.Sound)
    (h : Reads (Grammar.funcStat L) (i + 1) ts (kind, children) k vs) :
    ∃ parts, IsForm kind parts ∧ Spans parts i (.functionKw :: ts) children k vs := by
  rw [Grammar.funcStat] at h
  obtain ⟨name, j, us, read, h⟩ := reads_bind.mp h
  obtain ⟨n, name⟩ := funcName_sound read
  obtain ⟨body, j', us', read, h⟩ := reads_bind.mp h
  obtain ⟨eq, rfl, rfl⟩ := reads_pure.mp h
  obtain ⟨rfl, rfl⟩ := Prod.mk.inj eq
  obtain ⟨ps, ss, spans⟩ := funcBody_sound sound read
  exact ⟨_, ⟨.function n ps ss, rfl⟩, (name.append spans).after .functionKw⟩

theorem returnStat_sound (sound : L.Sound)
    (h : Reads (Grammar.returnStat L) (i + 1) ts (kind, children) k vs) :
    ∃ parts, IsForm kind parts ∧ Spans parts i (.returnKw :: ts) children k vs := by
  have ends {ps : List Phrase} {os : List Outline} {j : Nat} {us : List Token}
      (form : ∀ closed : Bool, IsForm .returnStat
        (key .returnKw :: (ps ++ if closed then [key .semicolon] else [])))
      (spans : Spans ps (i + 1) ts os j us)
      (h : Reads (do
        let children ← pure os
        let _ ← Step.accept .semicolon
        pure (NodeKind.returnStat, children)) j us (kind, children) k vs) :
      ∃ parts, IsForm kind parts ∧ Spans parts i (.returnKw :: ts) children k vs := by
    rw [reads_pure_bind, reads_accept_bind] at h
    obtain ⟨us, rfl, h⟩ | ⟨-, h⟩ := h
    · obtain ⟨eq, rfl, rfl⟩ := reads_pure.mp h
      obtain ⟨rfl, rfl⟩ := Prod.mk.inj eq
      have closed := (spans.append (.key .semicolon)).after .returnKw
      rw [List.append_nil] at closed
      exact ⟨_, form true, closed⟩
    · obtain ⟨eq, rfl, rfl⟩ := reads_pure.mp h
      obtain ⟨rfl, rfl⟩ := Prod.mk.inj eq
      have left := spans.after .returnKw
      rw [← List.append_nil ps] at left
      exact ⟨_, form false, left⟩
  simp only [Grammar.returnStat, reads_blockEnds_bind, reads_at?_bind] at h
  split at h
  · exact ends (fun closed => ⟨.returns [] closed, rfl⟩) (Phrase.spans_nil.mpr ⟨rfl, rfl, rfl⟩) h
  · obtain ⟨values, j, us, read, h⟩ := reads_bind.mp h
    obtain ⟨e, es, spans⟩ := exprList_sound sound read
    exact ends (fun closed => ⟨.returns (e :: es) closed, rfl⟩) spans h

/-- A block behind its opening word and in front of its closing word. -/
theorem loopBody_sound (sound : L.Sound) (h : Reads (Grammar.loopBody L) i ts o k vs) :
    ∃ ss, Spans (Phrase.loopBody (Stat.phrases ss)) i ts [o] k vs := by
  rw [Grammar.loopBody, reads_expect_bind] at h
  obtain ⟨us, rfl, h⟩ := h
  obtain ⟨body, j, us, read, h⟩ := reads_bind.mp h
  obtain ⟨ss, spans⟩ := block_sound sound read
  rw [reads_expect_bind] at h
  obtain ⟨us, rfl, h⟩ := h
  obtain ⟨rfl, rfl, rfl⟩ := reads_pure.mp h
  exact ⟨ss, (spans.append (.key .endKw)).after .doKw⟩

theorem doStat_sound (sound : L.Sound)
    (h : Reads (Grammar.doStat L) (i + 1) ts (kind, children) k vs) :
    ∃ parts, IsForm kind parts ∧ Spans parts i (.doKw :: ts) children k vs := by
  rw [Grammar.doStat] at h
  obtain ⟨body, j, us, read, h⟩ := reads_bind.mp h
  obtain ⟨ss, spans⟩ := block_sound sound read
  rw [reads_expect_bind] at h
  obtain ⟨us, rfl, h⟩ := h
  obtain ⟨eq, rfl, rfl⟩ := reads_pure.mp h
  obtain ⟨rfl, rfl⟩ := Prod.mk.inj eq
  exact ⟨_, ⟨.block ss, rfl⟩, (spans.append (.key .endKw)).after .doKw⟩

/-- A condition, the word behind it and the block that it guards. -/
theorem guardedBlock_sound {α : Type} {t : Token} {missing : Expectation}
    {f : Outline → Outline → Step Sketch α} {a : α} (sound : L.Sound)
    (h : Reads (do
      let condition ← L.expr 0
      Step.expect t missing
      let body ← Grammar.block L
      f condition body) i ts a k vs) :
    ∃ (e : Exp) (ss : List Stat) (c b : Outline) (j : Nat) (us : List Token),
      Spans [e.phrase, key t, .group .block (Stat.phrases ss)] i ts [c, b] j us
        ∧ Reads (f c b) j us a k vs := by
  obtain ⟨c, j, us, read, h⟩ := reads_bind.mp h
  obtain ⟨e, condition⟩ := sound.expr read
  rw [reads_expect_bind] at h
  obtain ⟨us, rfl, h⟩ := h
  obtain ⟨b, j', us', read, h⟩ := reads_bind.mp h
  obtain ⟨ss, block⟩ := block_sound sound read
  exact ⟨e, ss, c, b, j', us', condition.append (block.after t), h⟩

theorem whileStat_sound (sound : L.Sound)
    (h : Reads (Grammar.whileStat L) (i + 1) ts (kind, children) k vs) :
    ∃ parts, IsForm kind parts ∧ Spans parts i (.whileKw :: ts) children k vs := by
  rw [Grammar.whileStat] at h
  obtain ⟨e, ss, c, b, j, us, spans, h⟩ := guardedBlock_sound sound h
  rw [reads_expect_bind] at h
  obtain ⟨us, rfl, h⟩ := h
  obtain ⟨eq, rfl, rfl⟩ := reads_pure.mp h
  obtain ⟨rfl, rfl⟩ := Prod.mk.inj eq
  exact ⟨_, ⟨.while e ss, rfl⟩, (spans.append (.key .endKw)).after .whileKw⟩

theorem repeatStat_sound (sound : L.Sound)
    (h : Reads (Grammar.repeatStat L) (i + 1) ts (kind, children) k vs) :
    ∃ parts, IsForm kind parts ∧ Spans parts i (.repeatKw :: ts) children k vs := by
  rw [Grammar.repeatStat] at h
  obtain ⟨body, j, us, read, h⟩ := reads_bind.mp h
  obtain ⟨ss, spans⟩ := block_sound sound read
  rw [reads_expect_bind] at h
  obtain ⟨us, rfl, h⟩ := h
  obtain ⟨c, j', us', read, h⟩ := reads_bind.mp h
  obtain ⟨e, condition⟩ := sound.expr read
  obtain ⟨eq, rfl, rfl⟩ := reads_pure.mp h
  obtain ⟨rfl, rfl⟩ := Prod.mk.inj eq
  exact ⟨_, ⟨.repeat ss e, rfl⟩, (spans.append (condition.after .untilKw)).after .repeatKw⟩

theorem ifClauses_sound (sound : L.Sound)
    (h : Reads (Grammar.ifClauses L done) i ts os k vs) :
    ∃ (cs : Clauses) (os' : List Outline), Spans cs.phrases i ts os' k vs
      ∧ os = os'.reverse ++ done := by
  rw [Grammar.ifClauses] at h
  refine h.iterate_induction (P := fun done i ts => ∃ (cs : Clauses) (os' : List Outline),
    Spans cs.phrases i ts os' k vs ∧ os = os'.reverse ++ done) ?_ ?_
  · intro done i ts again h stop
    rw [reads_here_bind, reads_accept_bind] at h
    obtain ⟨us, rfl, h⟩ | ⟨-, h⟩ := h
    · rw [if_pos rfl] at h
      obtain ⟨e, ss, c, b, j, us', spans, h⟩ := guardedBlock_sound sound h
      have le := spans.le
      rw [reads_finish_bind] at h
      obtain ⟨eq, rfl, rfl⟩ := reads_pure.mp h
      obtain ⟨rfl, rfl⟩ := Prod.mk.inj eq
      exact absurd ⟨rfl, by omega⟩ stop
    · rw [if_neg (by decide), reads_accept_bind] at h
      obtain ⟨us, rfl, h⟩ | ⟨-, h⟩ := h
      · rw [if_pos rfl] at h
        obtain ⟨body, j, us', read, h⟩ := reads_bind.mp h
        obtain ⟨ss, spans⟩ := block_sound sound read
        rw [reads_finish_bind] at h
        obtain ⟨eq, rfl, rfl⟩ := reads_pure.mp h
        obtain ⟨rfl, rfl⟩ := Prod.mk.inj eq
        exact ⟨.else ss, _, (spans.after .elseKw).plain .elseClause rfl (by decide), rfl⟩
      · obtain ⟨eq, rfl, rfl⟩ := reads_pure.mp h
        obtain ⟨rfl, rfl⟩ := Prod.mk.inj eq
        exact ⟨.none, [], Phrase.spans_nil.mpr ⟨rfl, rfl, rfl⟩, rfl⟩
  · intro done i ts done' j us h advanced ih
    rw [reads_here_bind, reads_accept_bind] at h
    obtain ⟨us, rfl, h⟩ | ⟨-, h⟩ := h
    · rw [if_pos rfl] at h
      obtain ⟨e, ss, c, b, j, us', spans, h⟩ := guardedBlock_sound sound h
      rw [reads_finish_bind] at h
      obtain ⟨eq, rfl, rfl⟩ := reads_pure.mp h
      obtain ⟨rfl, -⟩ := Prod.mk.inj eq
      obtain ⟨cs, os', others, rfl⟩ := ih
      have clause := (spans.after .elseifKw).plain .elseIfClause rfl (by decide)
      exact ⟨.elseif e ss cs, _ :: os', clause.append others, by simp⟩
    · rw [if_neg (by decide), reads_accept_bind] at h
      obtain ⟨us, rfl, h⟩ | ⟨-, h⟩ := h
      · rw [if_pos rfl] at h
        obtain ⟨body, j, us', read, h⟩ := reads_bind.mp h
        simp at h
      · simp at h

theorem ifStat_sound (sound : L.Sound)
    (h : Reads (Grammar.ifStat L) (i + 1) ts (kind, children) k vs) :
    ∃ parts, IsForm kind parts ∧ Spans parts i (.ifKw :: ts) children k vs := by
  rw [Grammar.ifStat] at h
  obtain ⟨e, ss, c, b, j, us, spans, h⟩ := guardedBlock_sound sound h
  obtain ⟨os, j', us', read, h⟩ := reads_bind.mp h
  obtain ⟨cs, os', clauses, rfl⟩ := ifClauses_sound sound read
  rw [reads_expect_bind] at h
  obtain ⟨us, rfl, h⟩ := h
  obtain ⟨eq, rfl, rfl⟩ := reads_pure.mp h
  obtain ⟨rfl, rfl⟩ := Prod.mk.inj eq
  have rest := clauses.append (.key .endKw)
  rw [List.append_nil] at rest
  rw [List.reverse_append, List.reverse_reverse]
  exact ⟨_, ⟨.if e ss cs, rfl⟩, (spans.append rest).after .ifKw⟩

theorem numericForStat_sound (sound : L.Sound)
    (h : Reads (Grammar.numericForStat L (some (.leaf .nameDef (i + 1)))) (i + 1 + 1 + 1) ts
      (kind, children) k vs) :
    ∃ parts, IsForm kind parts
      ∧ Spans parts i (.forKw :: .name :: .assign :: ts) children k vs := by
  rw [Grammar.numericForStat] at h
  obtain ⟨a, j₁, us₁, read, h⟩ := reads_bind.mp h
  obtain ⟨start, first⟩ := sound.expr read
  rw [reads_expect_bind] at h
  obtain ⟨us₂, rfl, h⟩ := h
  obtain ⟨b, j₂, us₃, read, h⟩ := reads_bind.mp h
  obtain ⟨stop, second⟩ := sound.expr read
  have name : Spans [ofName .nameDef ⟨Token.name.word, rfl⟩] (i + 1) (.name :: .assign :: ts)
      [.leaf .nameDef (i + 1)] (i + 1 + 1) (.assign :: ts) := .name .nameDef rfl (by decide)
  have bounds := (name.append ((first.append (second.after .comma)).after .assign)).after .forKw
  have ends {e : Option Exp} {x : Option Outline} {j : Nat} {us : List Token}
      (spans : Spans (Exp.stridePhrases e) j₂ us₃ x.toList j us)
      (h : Reads (do
        let body ← Grammar.loopBody L
        pure (NodeKind.numericForStat,
          (some (Outline.leaf .nameDef (i + 1))).toList ++ [a, b] ++ x.toList ++ [body])) j us
        (kind, children) k vs) :
      ∃ parts, IsForm kind parts ∧
        Spans parts i (.forKw :: .name :: .assign :: ts) children k vs := by
    obtain ⟨body, j', us', read, h⟩ := reads_bind.mp h
    obtain ⟨ss, block⟩ := loopBody_sound sound read
    obtain ⟨eq, rfl, rfl⟩ := reads_pure.mp h
    obtain ⟨rfl, rfl⟩ := Prod.mk.inj eq
    exact ⟨_, ⟨.numericFor ⟨Token.name.word, rfl⟩ start stop e ss, rfl⟩,
      (bounds.append spans).append block⟩
  rw [reads_accept_bind] at h
  obtain ⟨us, rfl, h⟩ | ⟨-, h⟩ := h
  · rw [if_pos rfl] at h
    obtain ⟨c, j, us', read, h⟩ := reads_map_bind.mp h
    obtain ⟨stride, third⟩ := sound.expr read
    exact ends (e := some stride) (x := some c) (third.after .comma) h
  · rw [if_neg (by decide), reads_pure_bind] at h
    exact ends (e := none) (x := none) (Phrase.spans_nil.mpr ⟨rfl, rfl, rfl⟩) h

theorem forStat_sound (sound : L.Sound)
    (h : Reads (Grammar.forStat L) (i + 1) ts (kind, children) k vs) :
    ∃ parts, IsForm kind parts ∧ Spans parts i (.forKw :: ts) children k vs := by
  simp only [Grammar.forStat, reads_here_bind, reads_leafOf?_bind] at h
  obtain ⟨us, rfl, h⟩ := h
  rw [reads_accept_bind] at h
  obtain ⟨us, rfl, h⟩ | ⟨-, h⟩ := h
  · exact numericForStat_sound sound h
  · rw [if_neg (by decide)] at h
    obtain ⟨os, j, us', loop, h⟩ := reads_bind.mp h
    obtain ⟨ns, os', others, rfl⟩ : ∃ (ns : List Name) (os' : List Outline),
        Spans (ns.flatMap fun n => [key .comma, ofName .nameDef n]) (i + 1 + 1) us os' j us'
          ∧ os = os'.reverse ++ [.leaf .nameDef (i + 1)] := by
      refine iterate_sound ?_ loop
      intro done i ts done' again j us h
      rw [Grammar.loopName, reads_accept_bind] at h
      obtain ⟨us, rfl, h⟩ | ⟨-, h⟩ := h
      · rw [if_pos rfl, reads_leafOf?_bind] at h
        obtain ⟨us, rfl, h⟩ := h
        obtain ⟨eq, rfl, rfl⟩ := reads_pure.mp h
        obtain ⟨rfl, -⟩ := Prod.mk.inj eq
        exact .inl ⟨⟨Token.name.word, rfl⟩, [.leaf .nameDef (i + 1)],
          (Spans.name .nameDef rfl (by decide)).after .comma, rfl⟩
      · obtain ⟨eq, rfl, rfl⟩ := reads_pure.mp h
        obtain ⟨rfl, rfl⟩ := Prod.mk.inj eq
        exact .inr ⟨rfl, rfl, rfl, rfl⟩
    rw [← commaTail_map] at others
    have name : Spans [ofName .nameDef ⟨Token.name.word, rfl⟩] (i + 1) (.name :: us)
        [.leaf .nameDef (i + 1)] (i + 1 + 1) us := .name .nameDef rfl (by decide)
    have names := Spans.wrap (name.append others) .nameList (Mark.start (i + 1)) (row_names _ ns)
      (Phrase.leaf_plain _ rfl (by decide)) rfl (by decide)
    rw [reads_wrap_bind, reads_expect_bind] at h
    obtain ⟨us, rfl, h⟩ := h
    obtain ⟨values, j', us', read, h⟩ := reads_bind.mp h
    obtain ⟨e, es, list⟩ := exprList_sound sound read
    obtain ⟨body, j'', us'', read, h⟩ := reads_bind.mp h
    obtain ⟨ss, block⟩ := loopBody_sound sound read
    obtain ⟨eq, rfl, rfl⟩ := reads_pure.mp h
    obtain ⟨rfl, rfl⟩ := Prod.mk.inj eq
    rw [List.reverse_append, List.reverse_reverse, List.reverse_singleton]
    exact ⟨_, ⟨.genericFor ⟨Token.name.word, rfl⟩ ns e es ss, rfl⟩,
      (names.append ((list.append block).after .inKw)).after .forKw⟩

theorem gotoStat_sound (h : Reads Grammar.gotoStat (i + 1) ts (kind, children) k vs) :
    ∃ parts, IsForm kind parts ∧ Spans parts i (.gotoKw :: ts) children k vs := by
  rw [Grammar.gotoStat, reads_leafOf?_bind] at h
  obtain ⟨us, rfl, h⟩ := h
  obtain ⟨eq, rfl, rfl⟩ := reads_pure.mp h
  obtain ⟨rfl, rfl⟩ := Prod.mk.inj eq
  exact ⟨_, ⟨.goto ⟨Token.name.word, rfl⟩, rfl⟩,
    (Spans.name .name rfl (by decide)).after .gotoKw⟩

theorem labelStat_sound (h : Reads Grammar.labelStat (i + 1) ts (kind, children) k vs) :
    ∃ parts, IsForm kind parts ∧ Spans parts i (.doubleColon :: ts) children k vs := by
  rw [Grammar.labelStat, reads_leafOf?_bind] at h
  obtain ⟨us, rfl, h⟩ := h
  rw [reads_expect_bind] at h
  obtain ⟨us, rfl, h⟩ := h
  obtain ⟨eq, rfl, rfl⟩ := reads_pure.mp h
  obtain ⟨rfl, rfl⟩ := Prod.mk.inj eq
  exact ⟨_, ⟨.label ⟨Token.name.word, rfl⟩, rfl⟩,
    ((Spans.name .name rfl (by decide)).append (.key .doubleColon)).after .doubleColon⟩

/-- A suffixed expression whose node is a call is a statement. -/
theorem callStat_sound {e : Suffixed} (spans : Spans [e.phrase] i ts [o] j us)
    (isCall : o.kind = .callExpr) :
    ∃ parts, IsForm .callStat parts ∧ Spans parts i ts [o] j us := by
  have other {k : NodeKind} {parts : List Phrase} (notStat : k.isStatement = false)
      (notBlock : k ≠ .block) (notCall : k ≠ .callExpr)
      (spans : Spans [.group k parts] i ts [o] j us) : False := by
    obtain ⟨os, -, eq⟩ := (Phrase.spans_plain notStat notBlock).mp spans
    rw [List.singleton_inj.mp eq] at isCall
    exact notCall isCall
  cases e with
  | call e args => exact ⟨_, ⟨.call e args, rfl⟩, spans⟩
  | method e n args => exact ⟨_, ⟨.methodCall e n args, rfl⟩, spans⟩
  | name => exact (other rfl (by decide) (by decide) spans).elim
  | paren => exact (other rfl (by decide) (by decide) spans).elim
  | field => exact (other rfl (by decide) (by decide) spans).elim
  | index => exact (other rfl (by decide) (by decide) spans).elim

/-- The targets behind the first one; a comma that no target follows is let pass. -/
theorem targets_sound (sound : L.Sound)
    (h : Reads (Step.iterate (Grammar.target L) done) i ts os k vs) :
    ∃ (es : List Suffixed) (trailing : Bool) (os' : List Outline),
      Spans (commaTail (es.map Suffixed.phrase) ++ if trailing then [key .comma] else []) i ts os'
        k vs ∧ os = os'.reverse ++ done := by
  refine h.iterate_induction (P := fun done i ts => ∃ (es : List Suffixed) (trailing : Bool)
    (os' : List Outline), Spans (commaTail (es.map Suffixed.phrase)
      ++ if trailing then [key .comma] else []) i ts os' k vs ∧ os = os'.reverse ++ done) ?_ ?_
  · intro done i ts again h stop
    rw [Grammar.target, reads_accept_bind] at h
    obtain ⟨us, rfl, h⟩ | ⟨-, h⟩ := h
    · rw [if_pos rfl] at h
      obtain ⟨target, j', us', read, h⟩ := reads_bind.mp h
      have le := read.le
      cases target with
      | none =>
        obtain ⟨eq, rfl, rfl⟩ := reads_pure.mp h
        obtain ⟨rfl, rfl⟩ := Prod.mk.inj eq
        obtain ⟨rfl, rfl⟩ := suffixedExpr_none read
        exact ⟨[], true, [], Spans.key .comma, rfl⟩
      | some t =>
        obtain ⟨eq, rfl, rfl⟩ := reads_pure.mp h
        obtain ⟨-, rfl⟩ := Prod.mk.inj eq
        exact absurd ⟨rfl, by omega⟩ stop
    · obtain ⟨eq, rfl, rfl⟩ := reads_pure.mp h
      obtain ⟨rfl, rfl⟩ := Prod.mk.inj eq
      exact ⟨[], false, [], Phrase.spans_nil.mpr ⟨rfl, rfl, rfl⟩, rfl⟩
  · intro done i ts done' j us h advanced ih
    rw [Grammar.target, reads_accept_bind] at h
    obtain ⟨us, rfl, h⟩ | ⟨-, h⟩ := h
    · rw [if_pos rfl] at h
      obtain ⟨target, j', us', read, h⟩ := reads_bind.mp h
      cases target with
      | none => simp at h
      | some t =>
        obtain ⟨eq, rfl, rfl⟩ := reads_pure.mp h
        obtain ⟨rfl, -⟩ := Prod.mk.inj eq
        obtain ⟨e, first⟩ := suffixedExpr_sound sound read
        obtain ⟨es, trailing, os', others, rfl⟩ := ih
        exact ⟨e :: es, trailing, t :: os', (first.append others).after .comma, by simp⟩
    · simp at h

theorem assignOrCall_sound (sound : L.Sound) {e : Suffixed} (spans : Spans [e.phrase] i ts [o] j us)
    (h : Reads (Grammar.assignOrCall L (Mark.start i) o) j us (kind, children) k vs) :
    ∃ parts, IsForm kind parts ∧ Spans parts i ts children k vs := by
  simp only [Grammar.assignOrCall, reads_at?_bind] at h
  split at h
  · obtain ⟨os, j', us', loop, h⟩ := reads_bind.mp h
    obtain ⟨es, trailing, os', others, rfl⟩ := targets_sound sound loop
    rw [Phrase.spans_append] at others
    obtain ⟨os₁, l, ws, os₂, others, comma, rfl⟩ := others
    have noOutline : os₂ = [] := by
      cases trailing with
      | false => exact (Phrase.spans_nil.mp comma).2.1
      | true => exact (Phrase.spans_word.mp comma).2.1
    subst noOutline
    have list := Spans.wrap (spans.append others) .varList (Mark.start i) (row_commaSuffixed e es)
      e.plain rfl (by decide)
    rw [reads_wrap_bind, reads_expect_bind] at h
    obtain ⟨us, rfl, h⟩ := h
    obtain ⟨values, j'', us'', read, h⟩ := reads_bind.mp h
    obtain ⟨eq, rfl, rfl⟩ := reads_pure.mp h
    obtain ⟨rfl, rfl⟩ := Prod.mk.inj eq
    obtain ⟨x, xs, values⟩ := exprList_sound sound read
    rw [List.append_nil, List.reverse_append, List.reverse_reverse, List.reverse_singleton]
    refine ⟨_, ⟨.assign e es trailing x xs, rfl⟩, ?_⟩
    rw [Suffixed.phrases_eq_map]
    exact list.append (comma.append (values.after .assign))
  · rw [reads_kindOf_bind] at h
    split at h
    · next isCall =>
      obtain ⟨eq, rfl, rfl⟩ := reads_pure.mp h
      obtain ⟨rfl, rfl⟩ := Prod.mk.inj eq
      exact callStat_sound spans isCall
    · exact absurd h not_reads_refuse_bind

theorem exprStat_sound (sound : L.Sound) (h : Reads (Grammar.exprStat L) i ts (kind, children) k vs)
    (moved : k ≠ i) : ∃ parts, IsForm kind parts ∧ Spans parts i ts children k vs := by
  rw [Grammar.exprStat, reads_here_bind, reads_bind] at h
  obtain ⟨target, j, us, read, h⟩ := h
  cases target with
  | none =>
    obtain ⟨rfl, rfl⟩ := suffixedExpr_none read
    obtain ⟨-, rfl, -⟩ := reads_pure.mp h
    exact absurd rfl moved
  | some o =>
    obtain ⟨e, spans⟩ := suffixedExpr_sound sound read
    exact assignOrCall_sound sound spans h

theorem form_sound (sound : L.Sound) (h : Reads (Grammar.form L) i ts (kind, children) k vs)
    (moved : k ≠ i) : ∃ parts, IsForm kind parts ∧ Spans parts i ts children k vs := by
  rw [Grammar.form, reads_peek_bind] at h
  split at h
  case h_13 => exact exprStat_sound sound h moved
  all_goals
    rename_i found
    obtain ⟨us, rfl⟩ := List.head?_eq_some_iff.mp found
    rw [reads_bump_bind] at h
  · obtain ⟨eq, rfl, rfl⟩ := reads_pure.mp h
    obtain ⟨rfl, rfl⟩ := Prod.mk.inj eq
    exact ⟨_, ⟨.empty, rfl⟩, .key .semicolon⟩
  · rw [reads_accept_bind] at h
    obtain ⟨us, rfl, h⟩ | ⟨-, h⟩ := h
    · exact localFuncStat_sound sound h
    · exact localStat_sound sound h
  · exact funcStat_sound sound h
  · exact returnStat_sound sound h
  · exact doStat_sound sound h
  · exact whileStat_sound sound h
  · exact repeatStat_sound sound h
  · exact ifStat_sound sound h
  · exact forStat_sound sound h
  · obtain ⟨eq, rfl, rfl⟩ := reads_pure.mp h
    obtain ⟨rfl, rfl⟩ := Prod.mk.inj eq
    exact ⟨_, ⟨.break, rfl⟩, .key .breakKw⟩
  · exact gotoStat_sound h
  · exact labelStat_sound h

/-- A statement that reads anything is the phrase of a statement. -/
theorem statement_sound (sound : L.Sound) (h : Reads (Grammar.statement L) i ts o k vs)
    (moved : k ≠ i) : ∃ s : Stat, Spans [s.phrase] i ts [o] k vs := by
  rw [Grammar.statement, reads_doc_bind] at h
  obtain ⟨⟨kind, children⟩, j, us, read, h⟩ := reads_bind.mp h
  obtain ⟨rfl, rfl, rfl⟩ := reads_finish.mp h
  obtain ⟨parts, ⟨s, eq⟩, spans⟩ := form_sound sound read moved
  have stat : kind.isStatement = true := by
    have stat := s.isStatement
    rw [eq] at stat
    exact stat.1
  refine ⟨s, ?_⟩
  rw [eq]
  exact spans.statement kind stat

end Statements

/-! ## Programs -/

/-- Every level reads only phrases of expressions and statements. -/
theorem level_sound (n : Nat) : (Grammar.level n).Sound := by
  induction n with
  | zero =>
    constructor
    · intro limit i ts o j us h
      exact absurd h Step.not_reads_cutOff
    · intro i ts o j us h _
      exact absurd h Step.not_reads_cutOff
  | succ n ih =>
    constructor
    · intro limit i ts o j us h
      exact expression_sound ih h
    · intro i ts o j us h moved
      exact statement_sound ih h moved

theorem reads_strays {i k : Nat} {ts vs : List Token} {u : Unit} :
    Step.Reads Grammar.strays i ts u k vs ↔ ts = [] ∧ k = i ∧ vs = [] := by
  rw [Grammar.strays, Step.reads_iterate]
  constructor
  · rintro ⟨_, again, j, us, h, rest⟩
    rw [Step.reads_atEnd_bind] at h
    split at h
    · next atEnd =>
      obtain ⟨eq, rfl, rfl⟩ := Step.reads_pure.mp h
      obtain ⟨-, rfl⟩ := Prod.mk.inj eq
      rw [if_neg Bool.false_ne_true] at rest
      obtain ⟨-, rfl, rfl⟩ := rest
      have empty := List.isEmpty_iff.mp atEnd
      exact ⟨empty, rfl, empty⟩
    · exact absurd h Step.not_reads_refuse_bind
  · rintro ⟨rfl, rfl, rfl⟩
    refine ⟨(), false, k, [], ?_, by simp⟩
    simp

/-- A program without faults is the phrase of a block. -/
theorem Program.exists_phrases {limit : Nat} {tokens : List Token}
    (h : (Program.ofTokens limit tokens).faults = []) :
    ∃ ss : List Stat, Spans [.group .block (Stat.phrases ss)] 0 tokens
      [(Program.ofTokens limit tokens).body] tokens.length [] := by
  have faults : (Grammar.chunk limit (.start tokens (⟨⟩ : Sketch))).val.2.faults = [] :=
    List.reverse_eq_nil_iff.mp h
  have clean := Cursor.eq_clean faults (Grammar.astray_chunk limit tokens)
  have read : Step.Reads (Grammar.chunk limit) 0 tokens _ _ _ := Step.exists_reads rfl clean
  rw [Grammar.chunk, Step.reads_bind] at read
  obtain ⟨body, j, us, block, read⟩ := read
  obtain ⟨ss, spans⟩ := block_sound (level_sound limit) block
  obtain ⟨u, j', us', strays, read⟩ := Step.reads_bind.mp read
  obtain ⟨rfl, rfl, rfl⟩ := reads_strays.mp strays
  obtain ⟨eq, -, -⟩ := Step.reads_pure.mp read
  have all := block.add_length
  rw [List.length_nil, Nat.zero_add, Nat.add_zero] at all
  subst all
  have same : (Program.ofTokens limit tokens).body = body := eq
  rw [same]
  exact ⟨ss, spans⟩

end LuaTyping
