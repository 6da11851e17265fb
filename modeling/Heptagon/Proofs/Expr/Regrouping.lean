import Heptagon.Proofs.Plain

/-!
# Regrouping expressions

Every plain expression has the text of a normal one (`Expr.exists_normal`),
however its operators group and its arguments divide.  The normal expression is
built from the parts of the given one:

* `Expr.join` puts an operator and a right operand after an expression.  If the
  expression ends in a conditional, they belong to its last branch; if the right
  operand is a chain of its own, its operators come one after another.
* `Expr.signed` puts a sign before the first operand of a chain.
* `Expr.meet` is for two expressions without anything between, the second of
  which goes on with the first: its sign becomes an operator, or its parentheses
  become the arguments of the name that the first one ends in.
-/

namespace Heptagon

namespace Expr

variable {l r e f : Expr} {op : BinaryOp} {ts : List Lexeme}

/-! ## Operators between -/

/-- An operator and a chain of operands after an expression that does not end in a conditional. -/
def extend (l : Expr) (op : BinaryOp) : Expr → Expr
  | .binary rl rop rr => .binary (l.extend op rl) rop rr
  | r => .binary l op r

/-- An operator and a chain of operands after an expression. -/
def join (op : BinaryOp) (r : Expr) : Expr → Expr
  | .cond c y n => .cond c y (join op r n)
  | .unary s e => if e.endsInCond then .unary s (join op r e) else extend (.unary s e) op r
  | .binary a o b => if b.endsInCond then .binary a o (join op r b) else extend (.binary a o b) op r
  | l => extend l op r

@[simp] theorem lexemes_extend (l : Expr) (op : BinaryOp) :
    (r : Expr) → (l.extend op r).lexemes = l.lexemes ++ op.lexeme :: r.lexemes
  | .binary rl rop rr => by simp [extend, lexemes, lexemes_extend l op rl]
  | .literal _ | .name _ | .paren _ _ | .tuple _ _ _ _ | .record _ _ _ | .call _ _ | .unary _ _
  | .cond _ _ _ => rfl

@[simp] theorem endsInCond_extend (l : Expr) (op : BinaryOp) (r : Expr) :
    (l.extend op r).endsInCond = r.endsInCond := by
  cases r <;> rfl

@[simp] theorem endsInName_extend (l : Expr) (op : BinaryOp) (r : Expr) :
    (l.extend op r).endsInName = r.endsInName := by
  cases r <;> rfl

theorem normal_extend (hl : l.Normal) (hcond : l.endsInCond = false) :
    (r : Expr) → r.Normal → (l.extend op r).Normal
  | .binary rl rop rr, h => by
      obtain ⟨hrcond, hbinary, hrl, hrr⟩ := h
      exact ⟨(endsInCond_extend _ _ _).trans hrcond, hbinary, normal_extend hl hcond rl hrl, hrr⟩
  | .literal _, h | .name _, h | .paren _ _, h | .tuple _ _ _ _, h | .record _ _ _, h | .call _ _, h
  | .unary _ _, h | .cond _ _ _, h => ⟨hcond, rfl, hl, h⟩

@[simp] theorem lexemes_join (op : BinaryOp) (r : Expr) :
    (l : Expr) → (join op r l).lexemes = l.lexemes ++ op.lexeme :: r.lexemes
  | .cond c y n => by simp [join, lexemes, lexemes_join op r n]
  | .unary s e => by
      rw [join]
      split
      · simp [lexemes, lexemes_join op r e]
      · exact lexemes_extend _ _ _
  | .binary a o b => by
      rw [join]
      split
      · simp [lexemes, lexemes_join op r b]
      · exact lexemes_extend _ _ _
  | .literal _ | .name _ | .paren _ _ | .tuple _ _ _ _ | .record _ _ _ | .call _ _ =>
      lexemes_extend _ _ _

@[simp] theorem endsInName_join (op : BinaryOp) (r : Expr) :
    (l : Expr) → (join op r l).endsInName = r.endsInName
  | .cond c y n => endsInName_join op r n
  | .unary s e => by
      rw [join]
      split
      · exact endsInName_join op r e
      · exact endsInName_extend _ _ _
  | .binary a o b => by
      rw [join]
      split
      · exact endsInName_join op r b
      · exact endsInName_extend _ _ _
  | .literal _ | .name _ | .paren _ _ | .tuple _ _ _ _ | .record _ _ _ | .call _ _ =>
      endsInName_extend _ _ _

/-- What is put into the last branch of a conditional does not show outside. -/
theorem isBinary_join (h : l.endsInCond = true) : (join op r l).isBinary = l.isBinary := by
  cases l with
  | cond c y n => rfl
  | unary s e =>
      rw [join, if_pos (show e.endsInCond = true from h)]
      rfl
  | binary a o b =>
      rw [join, if_pos (show b.endsInCond = true from h)]
      rfl
  | _ => simp [endsInCond] at h

theorem normal_join (hr : r.Normal) : (l : Expr) → l.Normal → (join op r l).Normal
  | .cond c y n, h => ⟨h.1, h.2.1, normal_join hr n h.2.2⟩
  | .unary s e, h => by
      rw [join]
      split
      · next hcond => exact ⟨(isBinary_join hcond).trans h.1, normal_join hr e h.2⟩
      · next hcond => exact normal_extend h (by simpa [endsInCond] using hcond) r hr
  | .binary a o b, h => by
      rw [join]
      split
      · next hcond =>
          obtain ⟨hacond, hbinary, ha, hb⟩ := h
          exact ⟨hacond, (isBinary_join hcond).trans hbinary, ha, normal_join hr b hb⟩
      · next hcond => exact normal_extend h (by simpa [endsInCond] using hcond) r hr
  | .literal _, h | .name _, h | .paren _ _, h | .tuple _ _ _ _, h | .record _ _ _, h
  | .call _ _, h => normal_extend h rfl r hr

/-! ## Operators before -/

/-- A sign before the first operand of a chain. -/
def signed (s : UnaryOp) : Expr → Expr
  | .binary l op r => .binary (signed s l) op r
  | e => .unary s e

@[simp] theorem lexemes_signed (s : UnaryOp) :
    (e : Expr) → (signed s e).lexemes = s.lexeme :: e.lexemes
  | .binary l op r => by simp [signed, lexemes, lexemes_signed s l]
  | .literal _ | .name _ | .paren _ _ | .tuple _ _ _ _ | .record _ _ _ | .call _ _ | .unary _ _
  | .cond _ _ _ => rfl

@[simp] theorem endsInCond_signed (s : UnaryOp) (e : Expr) :
    (signed s e).endsInCond = e.endsInCond := by
  cases e <;> rfl

theorem normal_signed {s : UnaryOp} : (e : Expr) → e.Normal → (signed s e).Normal
  | .binary l op r, h => by
      obtain ⟨hcond, hbinary, hl, hr⟩ := h
      exact ⟨(endsInCond_signed s l).trans hcond, hbinary, normal_signed l hl, hr⟩
  | .literal _, h | .name _, h | .paren _ _, h | .tuple _ _ _ _, h | .record _ _ _, h | .call _ _, h
  | .unary _ _, h | .cond _ _ _, h => ⟨rfl, h⟩

/-! ## Nothing between -/

/-- The expression with arguments for the name that it ends in. -/
def callLast (args : Args) : Expr → Expr
  | .name f => .call f args
  | .unary s e => .unary s (callLast args e)
  | .binary l op r => .binary l op (callLast args r)
  | .cond c y n => .cond c y (callLast args n)
  | e => e

theorem lexemes_callLast (args : Args) : (e : Expr) → e.endsInName = true →
    (callLast args e).lexemes =
      e.lexemes ++ .symbol .parenOpen :: (args.lexemes ++ [.symbol .parenClose])
  | .name f, _ => rfl
  | .unary s e, h => by simp [callLast, lexemes, lexemes_callLast args e h]
  | .binary l op r, h => by simp [callLast, lexemes, lexemes_callLast args r h]
  | .cond c y n, h => by simp [callLast, lexemes, lexemes_callLast args n h]

@[simp] theorem isBinary_callLast (args : Args) (e : Expr) :
    (callLast args e).isBinary = e.isBinary := by
  cases e <;> rfl

theorem endsInName_callLast (args : Args) : (e : Expr) → (callLast args e).endsInName = false
  | .unary _ e => endsInName_callLast args e
  | .binary _ _ r => endsInName_callLast args r
  | .cond _ _ n => endsInName_callLast args n
  | .literal _ | .name _ | .paren _ _ | .tuple _ _ _ _ | .record _ _ _ | .call _ _ => rfl

theorem normal_callLast {args : Args} (hargs : args.Normal) :
    (e : Expr) → e.Normal → (callLast args e).Normal
  | .name _, h => ⟨h, hargs⟩
  | .unary s e, h => ⟨(isBinary_callLast args e).trans h.1, normal_callLast hargs e h.2⟩
  | .binary l op r, h => by
      obtain ⟨hcond, hbinary, hl, hr⟩ := h
      exact ⟨hcond, (isBinary_callLast args r).trans hbinary, hl, normal_callLast hargs r hr⟩
  | .cond c y n, h => ⟨h.1, h.2.1, normal_callLast hargs n h.2.2⟩
  | .literal _, h | .paren _ _, h | .tuple _ _ _ _, h | .record _ _ _, h | .call _ _, h => h

/-- The expression of two after each other, the second of which goes on with the first. -/
def meet (l : Expr) : Expr → Expr
  | .binary fl op fr => join op fr (l.meet fl)
  | .unary .minus e => join .minus e l
  | .unary .minusDot e => join .minusDot e l
  | .paren _ e => l.callLast (.group e .nil .nil)
  | .tuple _ e f es => l.callLast (.group e (.cons f es) .nil)
  | _ => l

/-- One argument group ends before the closing parenthesis. -/
theorem normal_group (es : Exprs) (he : e.Normal) (hes : es.Normal) :
    (Args.group e es .nil).Normal :=
  ⟨he, hes, trivial, .of_cons rfl (by simp)⟩

/-- The second expression goes on with the first one.  It starts with no operator that cannot be a
sign, as a name spelled like one would. -/
structure Meets (l f : Expr) : Prop where
  stops : ¬ l.Stops f.lexemes
  head : ∀ t ∈ f.lexemes.head?, t ∉ [.kw .fby, .kw .and, .kw .or]

/-- Only the first lexeme of the second expression counts. -/
theorem Meets.congr {fl : Expr} (h : l.Meets f) (hhead : fl.lexemes.head? = f.lexemes.head?) :
    l.Meets fl :=
  ⟨fun hstops => h.stops (hstops.congr hhead), hhead ▸ h.head⟩

theorem Meets.left {fl fr : Expr} (h : l.Meets (.binary fl op fr)) : l.Meets fl := by
  refine h.congr ?_
  obtain ⟨t, us, hus, -⟩ := fl.exists_lexemes_eq_cons
  simp [lexemes, hus]

/-- The first lexeme of the second expression is an operator, or a parenthesis after a name. -/
theorem Meets.of_head {t : Lexeme} {us : List Lexeme} (h : l.Meets f) (hf : f.lexemes = t :: us) :
    (∃ op, t = BinaryOp.lexeme op) ∨ (l.endsInName = true ∧ t = .symbol .parenOpen) := by
  have hstops := h.stops
  rw [hf] at hstops
  cases hop : BinaryOp.ofLexeme? t with
  | some op => exact .inl ⟨op, BinaryOp.eq_lexeme_of_ofLexeme? hop⟩
  | none =>
      by_cases hparen : l.endsInName = true ∧ t = .symbol .parenOpen
      · exact .inr hparen
      · refine absurd ⟨BinaryOp.take?_cons_eq_none_iff.mpr hop, fun hname hhead => ?_⟩ hstops
        exact hparen ⟨hname, by simpa using hhead⟩

/-- The parentheses that an expression goes on with come after a name. -/
theorem Meets.of_opening {o : Opening} {us : List Lexeme} (h : l.Meets f)
    (hf : f.lexemes = o.lexeme :: us) :
    l.endsInName = true ∧ o.lexeme = .symbol .parenOpen := by
  rcases h.of_head hf with ⟨op, hop⟩ | h
  · cases o <;> cases op <;> simp [Opening.lexeme, BinaryOp.lexeme] at hop
  · exact h

/-- No expression goes on with one that starts with a word. -/
theorem Meets.ne_word {w : Word} {us : List Lexeme} (h : l.Meets f) :
    f.lexemes ≠ .word w :: us := by
  intro hf
  have hhead := h.head (.word w) (by simp [hf])
  rcases h.of_head hf with ⟨op, hop⟩ | ⟨-, hparen⟩
  · cases op <;> simp_all [BinaryOp.lexeme]
  · simp at hparen

theorem Meets.lexemes_meet : (f : Expr) → l.Meets f → (l.meet f).lexemes = l.lexemes ++ f.lexemes
  | .binary fl op fr, h => by simp [meet, lexemes, Meets.lexemes_meet fl h.left]
  | .unary .minus e, _ => lexemes_join _ _ _
  | .unary .minusDot e, _ => lexemes_join _ _ _
  | .paren o e, h => by
      obtain ⟨hname, ho⟩ := h.of_opening rfl
      simp [meet, lexemes, lexemes_callLast _ l hname, Args.lexemes, Exprs.moreLexemes, ho]
  | .tuple o e f es, h => by
      obtain ⟨hname, ho⟩ := h.of_opening rfl
      simp [meet, lexemes, lexemes_callLast _ l hname, Args.lexemes, Exprs.moreLexemes, ho]
  | .name w, h => absurd rfl h.ne_word
  | .call w _, h => absurd rfl h.ne_word
  | .cond _ _ _, h => absurd rfl h.ne_word
  | .unary .pre _, h => absurd rfl h.ne_word
  | .unary .not _, h => absurd rfl h.ne_word
  | .unary .last _, h => absurd rfl h.ne_word
  | .literal (.bool true), h => absurd rfl h.ne_word
  | .literal (.bool false), h => absurd rfl h.ne_word
  | .literal (.number _), h | .literal (.array _), h | .record _ _ _, h =>
      absurd (.of_cons rfl (by simp)) h.stops

theorem Meets.endsInName_meet :
    (f : Expr) → l.Meets f → (l.meet f).endsInName = f.endsInName
  | .binary _ _ _, _ => endsInName_join _ _ _
  | .unary .minus e, _ => endsInName_join _ _ _
  | .unary .minusDot e, _ => endsInName_join _ _ _
  | .paren _ _, _ => endsInName_callLast _ _
  | .tuple _ _ _ _, _ => endsInName_callLast _ _
  | .name w, h => absurd rfl h.ne_word
  | .call w _, h => absurd rfl h.ne_word
  | .cond _ _ _, h => absurd rfl h.ne_word
  | .unary .pre _, h => absurd rfl h.ne_word
  | .unary .not _, h => absurd rfl h.ne_word
  | .unary .last _, h => absurd rfl h.ne_word
  | .literal (.bool true), h => absurd rfl h.ne_word
  | .literal (.bool false), h => absurd rfl h.ne_word
  | .literal (.number _), h | .literal (.array _), h | .record _ _ _, h =>
      absurd (.of_cons rfl (by simp)) h.stops

theorem normal_meet (hl : l.Normal) : (f : Expr) → f.Normal → (l.meet f).Normal
  | .binary fl _ _, h => normal_join h.2.2.2 _ (normal_meet hl fl h.2.2.1)
  | .unary .minus _, h => normal_join h.2 l hl
  | .unary .minusDot _, h => normal_join h.2 l hl
  | .paren _ e, h => normal_callLast (normal_group .nil (show e.Normal from h) trivial) l hl
  | .tuple _ _ f es, h => normal_callLast (normal_group (.cons f es) h.1 h.2) l hl
  | .unary .pre _, _ | .unary .not _, _ | .unary .last _, _ | .literal _, _ | .name _, _
  | .record _ _ _, _ | .call _ _, _ | .cond _ _ _, _ => hl

/-! ## Plain expressions -/

/-- A plain expression starts with no operator but a sign. -/
theorem Plain.head : (e : Expr) → e.Plain → ∀ t ∈ e.lexemes.head?, t ∉ [.kw .fby, .kw .and, .kw .or]
  | .binary l op r, h, t, ht => by
      obtain ⟨u, us, hus, -⟩ := l.exists_lexemes_eq_cons
      exact Plain.head l h.1 t (by simpa [lexemes, hus] using ht)
  | .name w, h, t, ht | .call w _, h, t, ht => by
      obtain rfl : t = .word w := by simpa [lexemes, eq_comm] using ht
      cases w with
      | plain t => simp
      | keyword k => simp [Expr.Plain, Word.isPlain] at h
  | .literal (.bool true), _, t, ht | .literal (.bool false), _, t, ht | .cond _ _ _, _, t, ht
  | .literal (.number _), _, t, ht | .literal (.array _), _, t, ht | .record _ _ _, _, t, ht => by
      obtain rfl := Option.mem_some_iff.mp ht
      simp
  | .paren o _, _, t, ht | .tuple o _ _ _, _, t, ht => by
      obtain rfl := Option.mem_some_iff.mp ht
      cases o <;> simp [Opening.lexeme]
  | .unary op _, _, t, ht => by
      obtain rfl := Option.mem_some_iff.mp ht
      cases op <;> simp [UnaryOp.lexeme]

end Expr

/-- The first lexeme of some arguments is no operator but a sign. -/
def Args.StartsPlain (args : Args) : Prop :=
  ∀ t ∈ args.lexemes.head?, t ∉ [.kw .fby, .kw .and, .kw .or]

/-- Arguments in front of others are normal, or some that the next ones go on with. -/
theorem Args.exists_push {rest : Args} (hrest : rest.Normal) (hplain : rest.StartsPlain) :
    (es : Exprs) → es.Normal → ∀ {e : Expr}, e.Normal →
      ∃ f fs rest', (Args.group f fs rest').Normal ∧
        (Args.group f fs rest').lexemes = (Args.group e es rest).lexemes
  | .nil, _, e, he => by
      by_cases hstops : e.Stops (rest.lexemes ++ [.symbol .parenClose])
      · exact ⟨e, .nil, rest, ⟨he, trivial, hrest, hstops⟩, rfl⟩
      · cases rest with
        | nil => exact absurd (.of_cons rfl (by simp)) hstops
        | group f fs rest =>
            obtain ⟨hf, hfs, hrest, hlast⟩ := hrest
            obtain ⟨t, us, hus, -⟩ := f.exists_lexemes_eq_cons
            have hmeets : e.Meets f := by
              refine ⟨fun hf => hstops (hf.congr ?_), fun t ht => hplain t ?_⟩
              · simp [Args.lexemes, hus]
              · simpa [Args.lexemes, hus] using ht
            refine ⟨e.meet f, fs, rest, ⟨Expr.normal_meet he f hf, hfs, hrest, ?_⟩, ?_⟩
            · cases fs with
              | nil =>
                  -- the last expression of the group ends as before
                  exact ⟨hlast.operator, fun hname => hlast.paren (hmeets.endsInName_meet ▸ hname)⟩
              | cons g gs => exact hlast
            · simp [Args.lexemes, Exprs.moreLexemes, hmeets.lexemes_meet]
  | .cons a as, has, e, he => by
      obtain ⟨f, fs, rest', hnormal, hlexemes⟩ := exists_push hrest hplain as has.2 has.1
      obtain ⟨hf, hfs, hrest', hlast⟩ := hnormal
      refine ⟨e, .cons f fs, rest', ⟨he, ⟨hf, hfs⟩, hrest', hlast⟩, ?_⟩
      simpa [Args.lexemes, Exprs.moreLexemes] using hlexemes

mutual

theorem Literal.exists_normal : (l : Literal) → l.Plain →
    ∃ l' : Literal, l'.Normal ∧ l'.lexemes = l.lexemes
  | .number t, _ => ⟨.number t, trivial, rfl⟩
  | .bool value, _ => ⟨.bool value, trivial, rfl⟩
  | .array es, h => by
      obtain ⟨es', hnormal, hlexemes, -⟩ := Exprs.exists_normal es h
      exact ⟨.array es', hnormal, by simp [Literal.lexemes, hlexemes]⟩

/-- A plain expression has the text of a normal one. -/
theorem Expr.exists_normal : (e : Expr) → e.Plain →
    ∃ e' : Expr, e'.Normal ∧ e'.lexemes = e.lexemes
  | .literal l, h => by
      obtain ⟨l', hnormal, hlexemes⟩ := Literal.exists_normal l h
      exact ⟨.literal l', hnormal, hlexemes⟩
  | .name n, h => ⟨.name n, Word.isOperand_of_isPlain h, rfl⟩
  | .paren o e, h => by
      obtain ⟨e', he, hlexemes⟩ := Expr.exists_normal e h.2
      exact ⟨.paren o e', he, by simp [Expr.lexemes, hlexemes]⟩
  | .tuple o e f es, h => by
      obtain ⟨-, he, hf, hes⟩ := h
      obtain ⟨e', he', hlexemes⟩ := Expr.exists_normal e he
      obtain ⟨f', hf', hlexemes'⟩ := Expr.exists_normal f hf
      obtain ⟨es', hes', -, hmore⟩ := Exprs.exists_normal es hes
      exact ⟨.tuple o e' f' es', ⟨he', hf', hes'⟩,
        by simp [Expr.lexemes, hlexemes, hlexemes', hmore]⟩
  | .record n e fs, h => by
      obtain ⟨e', he, hlexemes⟩ := Expr.exists_normal e h.2.1
      obtain ⟨fs', hfs, hmore⟩ := Fields.exists_normal fs h.2.2
      exact ⟨.record n e' fs', ⟨he, hfs⟩, by simp [Expr.lexemes, hlexemes, hmore]⟩
  | .call f args, h => by
      obtain ⟨args', hargs, hlexemes⟩ := Args.exists_normal args h.2
      exact ⟨.call f args', ⟨Word.isOperand_of_isPlain h.1, hargs⟩,
        by simp [Expr.lexemes, hlexemes]⟩
  | .unary op e, h => by
      obtain ⟨e', he, hlexemes⟩ := Expr.exists_normal e h
      exact ⟨e'.signed op, e'.normal_signed he, by simp [Expr.lexemes, hlexemes]⟩
  | .binary l op r, h => by
      obtain ⟨l', hl, hlexemes⟩ := Expr.exists_normal l h.1
      obtain ⟨r', hr, hlexemes'⟩ := Expr.exists_normal r h.2
      exact ⟨.join op r' l', Expr.normal_join hr l' hl,
        by simp [Expr.lexemes, hlexemes, hlexemes']⟩
  | .cond c y n, h => by
      obtain ⟨c', hc, hlexemes⟩ := Expr.exists_normal c h.1
      obtain ⟨y', hy, hlexemes'⟩ := Expr.exists_normal y h.2.1
      obtain ⟨n', hn, hlexemes''⟩ := Expr.exists_normal n h.2.2
      exact ⟨.cond c' y' n', ⟨hc, hy, hn⟩,
        by simp [Expr.lexemes, hlexemes, hlexemes', hlexemes'']⟩

theorem Exprs.exists_normal : (es : Exprs) → es.Plain →
    ∃ es' : Exprs, es'.Normal ∧ es'.lexemes = es.lexemes ∧ es'.moreLexemes = es.moreLexemes
  | .nil, _ => ⟨.nil, trivial, rfl, rfl⟩
  | .cons e es, h => by
      obtain ⟨e', he, hlexemes⟩ := Expr.exists_normal e h.1
      obtain ⟨es', hes, -, hmore⟩ := Exprs.exists_normal es h.2
      exact ⟨.cons e' es', ⟨he, hes⟩, by simp [Exprs.lexemes, hlexemes, hmore],
        by simp [Exprs.moreLexemes, hlexemes, hmore]⟩

theorem Fields.exists_normal : (fs : Fields) → fs.Plain →
    ∃ fs' : Fields, fs'.Normal ∧ fs'.moreLexemes = fs.moreLexemes
  | .nil, _ => ⟨.nil, trivial, rfl⟩
  | .cons n e fs, h => by
      obtain ⟨e', he, hlexemes⟩ := Expr.exists_normal e h.2.1
      obtain ⟨fs', hfs, hmore⟩ := Fields.exists_normal fs h.2.2
      exact ⟨.cons n e' fs', ⟨he, hfs⟩, by simp [Fields.moreLexemes, hlexemes, hmore]⟩

theorem Args.exists_normal : (args : Args) → args.Plain →
    ∃ args' : Args, args'.Normal ∧ args'.lexemes = args.lexemes
  | .nil, _ => ⟨.nil, trivial, rfl⟩
  | .group e es rest, h => by
      obtain ⟨he, hes, hrest⟩ := h
      obtain ⟨e', he', hlexemes⟩ := Expr.exists_normal e he
      obtain ⟨es', hes', -, hmore⟩ := Exprs.exists_normal es hes
      obtain ⟨rest', hrest', hlexemes'⟩ := Args.exists_normal rest hrest
      have hplain : rest'.StartsPlain := by
        intro t ht
        cases rest with
        | nil => simp [hlexemes', Args.lexemes] at ht
        | group f fs rest =>
            obtain ⟨u, us, hus, -⟩ := f.exists_lexemes_eq_cons
            exact Expr.Plain.head f hrest.1 t (by simpa [hlexemes', Args.lexemes, hus] using ht)
      obtain ⟨f, fs, rest'', hnormal, hall⟩ := Args.exists_push hrest' hplain es' hes' he'
      refine ⟨.group f fs rest'', hnormal, ?_⟩
      rw [hall]
      simp [Args.lexemes, hlexemes, hmore, hlexemes']

end

end Heptagon
