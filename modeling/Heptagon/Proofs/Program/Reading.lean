import Heptagon.Program.Parser
import Heptagon.Proofs.Statement.Reading

/-!
# What the reader of programs takes

`Program.ofLexemes?_eq_some_iff`: a program is read from a list of lexemes
exactly if they are its units and it is how the reader reads its text
(`Program.Fits`).  So reading is a function on the fitting programs that
writing inverts, and the later developments speak of programs instead of
readers.
-/

namespace Heptagon

variable {ts rest : List Lexeme}

/-! ## Units -/

def Generic.units (g : Generic) : Units :=
  [.symbol .angleOpen] :: [.word g.name] :: [.symbol .colon] ::
    (g.type.units ++ [[.symbol .angleClose]])

/-- The units of a static parameter, if there is one. -/
def Generic.unitsOf : Option Generic → Units
  | none => []
  | some g => g.units

/-- The units of a component after its first word. -/
def Component.units (c : Component) : Units :=
  [.word c.name] :: (Generic.unitsOf c.generic ++ (c.inputs.units ++
    [.kw .returns] :: (c.outputs.units ++ (Locals.unitsOf c.locals ++
      [.kw .let_] :: (c.body.units ++ [[.kw .tel]])))))

def FieldType.units (f : FieldType) : Units :=
  [.word f.name] :: [.symbol .colon] :: f.type.units

/-- Fields with a semicolon before each. -/
def FieldType.moreUnits (fs : List FieldType) : Units :=
  fs.flatMap fun f => [.symbol .semicolon] :: f.units

/-- A bar, if there is one. -/
def Units.barIf : Bool → Units
  | true => [[.symbol .bar]]
  | false => []

/-- Constructors with a bar before each. -/
def Definition.variantUnits (variants : List Text) : Units :=
  variants.flatMap fun t => [[.symbol .bar], [.capital t]]

def Definition.units : Definition → Units
  | component c => [.kw (if c.hasMemory then .node else .fun_)] :: c.units
  | record n f fs => [.kw .type] :: [.word n] :: [.symbol .equal] :: [.symbol .braceOpen] ::
      (f.units ++ (FieldType.moreUnits fs ++ [[.symbol .braceClose]]))
  | enumeration n bar t variants => [.kw .type] :: [.word n] :: [.symbol .equal] ::
      (Units.barIf bar ++ [.capital t] :: variantUnits variants)

def Program.units (p : Program) : Units := p.flatMap Definition.units

/-! ## The tokens of the trees -/

@[simp] theorem Generic.unitsAll_trees (g : Option Generic) :
    Tree.unitsAll ((g.map Generic.trees).getD []) = (Generic.unitsOf g).shown := by
  cases g with
  | none => rfl
  | some g => simp [Generic.trees, Generic.unitsOf, Generic.units]

@[simp] theorem Component.unitsAll_trees (c : Component) :
    Tree.unitsAll c.trees =
      [.kw (if c.hasMemory then .node else .fun_)] :: c.units.shown := by
  simp [Component.trees, Component.units]

@[simp] theorem FieldType.unitsAll_trees (f : FieldType) :
    Tree.unitsAll f.trees = f.units.shown := by
  simp [FieldType.trees, FieldType.units]

@[simp] theorem FieldType.unitsAll_flatMap_trees (fs : List FieldType) :
    Tree.unitsAll (fs.flatMap fun f => .sym .semicolon :: f.trees) =
      (FieldType.moreUnits fs).shown := by
  induction fs with
  | nil => rfl
  | cons f fs ih => simpa [FieldType.moreUnits] using ih

@[simp] theorem Tree.unitsAll_barIf (bar : Bool) :
    Tree.unitsAll (Tree.barIf bar) = (Units.barIf bar).shown := by
  cases bar <;> rfl

@[simp] theorem Definition.unitsAll_flatMap_variants (variants : List Text) :
    Tree.unitsAll (variants.flatMap fun t => [.sym .bar, .leaf (.variant t)]) =
      (variantUnits variants).shown := by
  induction variants with
  | nil => rfl
  | cons t variants ih => simpa [variantUnits] using ih

@[simp] theorem Definition.unitsAll_trees (d : Definition) :
    Tree.unitsAll d.trees = d.units.shown := by
  cases d <;> simp [Definition.trees, Definition.units]

theorem Program.unitsAll_flatMap_trees (p : Program) :
    Tree.unitsAll (p.flatMap Definition.trees) = p.units.shown := by
  induction p with
  | nil => rfl
  | cons d p ih => simpa [Program.units] using ih

/-! ## Programs that fit -/

/-- The component is what is read in front of some lexemes. -/
structure Component.Fits (c : Component) (ts : List Lexeme) : Prop where
  generic : ∀ g ∈ c.generic, g.type.Normal
  inputs : c.inputs.Normal
  outputs : c.outputs.Normal
  locals : ∀ l ∈ c.locals, l.Normal
  body : c.body.Fits .block (.kw .tel :: ts)

/-- The definition is what is read in front of some lexemes. -/
def Definition.Fits : Definition → List Lexeme → Prop
  | component c, ts => c.Fits ts
  | record _ f fs, _ => ∀ f' ∈ f :: fs, f'.type.Normal
  | enumeration _ _ _ _, ts => ∀ t us, ts ≠ .symbol .bar :: .capital t :: us

/-- The program is what is read as its units. -/
def Program.Fits : Program → Prop
  | [] => True
  | d :: ds => d.Fits (Program.units ds).flatten ∧ Program.Fits ds

/-! ## Components -/

theorem Generic.of_take? {g : Option Generic} (h : take? ts = some (g, rest)) :
    ts = (unitsOf g).flatten ++ rest ∧ ∀ g' ∈ g, g'.type.Normal := by
  unfold take? at h
  split at h
  · simp only [Option.bind_eq_bind, Option.bind_eq_some_iff, Prod.exists, Option.pure_def,
      Option.some.injEq, Prod.mk.injEq, Name.take?_eq_some_iff, Lexeme.skip_eq_some_iff] at h
    obtain ⟨name, ts₁, rfl, ts₂, rfl, type, ts₃, htype, ts₄, rfl, rfl, rfl⟩ := h
    obtain ⟨rfl, ntype⟩ := Ty.of_take? htype
    refine ⟨by simp [unitsOf, units], fun g hg => ?_⟩
    obtain rfl := Option.mem_some_iff.mp hg
    exact ntype
  · obtain ⟨rfl, rfl⟩ := by simpa using h
    simp [unitsOf]

theorem Generic.take?_units {g : Option Generic} (h : ∀ g' ∈ g, g'.type.Normal)
    (hopen : ts.head? ≠ some (.symbol .angleOpen)) :
    take? ((unitsOf g).flatten ++ ts) = some (g, ts) := by
  cases g with
  | none => exact take?.eq_2 ts (by rintro us rfl; simp at hopen)
  | some g =>
      have htype := Ty.take?_units (h g rfl) (l := .symbol .angleClose) (by simp) ts
      simp [unitsOf, units, take?, Name.take?, Lexeme.skip, htype]

theorem Params.head?_units (p : Params) (us : List Lexeme) :
    ∃ o : Opening, (p.units.flatten ++ us).head? = some o.lexeme := by
  cases p with
  | empty o => exact ⟨o, rfl⟩
  | list o d ds semicolon => exact ⟨o, rfl⟩

theorem Component.take?_eq_some_iff {memory : Bool} {c : Component} :
    take? memory ts = some (c, rest) ↔
      ts = c.units.flatten ++ rest ∧ c.hasMemory = memory ∧ c.Fits rest := by
  constructor
  · intro h
    simp only [take?, Option.bind_eq_bind, Option.bind_eq_some_iff, Prod.exists, Option.pure_def,
      Option.some.injEq, Prod.mk.injEq, Name.take?_eq_some_iff, Lexeme.skip_eq_some_iff,
      Statements.take?_eq_some_iff] at h
    obtain ⟨name, ts₁, rfl, generic, ts₂, hgeneric, inputs, ts₃, hinputs, ts₄, rfl, outputs, ts₅,
      houtputs, locals, ts₆, hlocals, ts₇, rfl, body, ts₈, ⟨rfl, hbody⟩, ts₉, rfl, rfl, rfl⟩ := h
    obtain ⟨rfl, ngeneric⟩ := Generic.of_take? hgeneric
    obtain ⟨rfl, ninputs⟩ := Params.of_take? hinputs
    obtain ⟨rfl, noutputs⟩ := Params.of_take? houtputs
    obtain ⟨rfl, nlocals⟩ := Locals.of_take? hlocals
    exact ⟨by simp [units], rfl, ngeneric, ninputs, noutputs, nlocals, hbody⟩
  · rintro ⟨rfl, rfl, h⟩
    have hbody := Statements.take?_eq_some_iff.mpr ⟨rfl, h.body⟩
    have hlocals := Locals.take?_units h.locals (t := .kw .let_) rfl
      (c.body.units.flatten ++ .kw .tel :: rest)
    have houtputs := Params.take?_units h.outputs ((Locals.unitsOf c.locals).flatten ++
      .kw .let_ :: (c.body.units.flatten ++ .kw .tel :: rest))
    have hinputs := Params.take?_units h.inputs (.kw .returns :: (c.outputs.units.flatten ++
      ((Locals.unitsOf c.locals).flatten ++
        .kw .let_ :: (c.body.units.flatten ++ .kw .tel :: rest))))
    obtain ⟨o, ho⟩ := c.inputs.head?_units (.kw .returns :: (c.outputs.units.flatten ++
      ((Locals.unitsOf c.locals).flatten ++
        .kw .let_ :: (c.body.units.flatten ++ .kw .tel :: rest))))
    have hgeneric := Generic.take?_units h.generic (by rw [ho]; cases o <;> simp [Opening.lexeme])
    rw [units]
    simp only [List.flatten_cons, List.flatten_append, List.append_assoc, List.cons_append,
      List.nil_append, List.flatten_nil, take?, Name.take?, hgeneric, hinputs, houtputs, hlocals,
      hbody, Lexeme.skip, if_true, Option.bind_eq_bind, Option.bind_some, Option.pure_def]

/-! ## Types -/

theorem FieldType.of_take? {f : FieldType} (h : take? ts = some (f, rest)) :
    ts = f.units.flatten ++ rest ∧ f.type.Normal := by
  simp only [take?, Option.bind_eq_bind, Option.bind_eq_some_iff, Prod.exists, Option.pure_def,
    Option.some.injEq, Prod.mk.injEq, Name.take?_eq_some_iff, Lexeme.skip_eq_some_iff] at h
  obtain ⟨name, ts₁, rfl, ts₂, rfl, type, ts₃, htype, rfl, rfl⟩ := h
  obtain ⟨rfl, ntype⟩ := Ty.of_take? htype
  exact ⟨by simp [units], ntype⟩

theorem FieldType.take?_units {f : FieldType} (h : f.type.Normal) {l : Lexeme}
    (hl : l ≠ .symbol .caret) (us : List Lexeme) :
    take? (f.units.flatten ++ l :: us) = some (f, l :: us) := by
  simp [units, take?, Name.take?, Lexeme.skip, Ty.take?_units h hl]

theorem FieldType.of_takeMore {n : Nat} {fs : List FieldType}
    (h : takeMore n ts = some (fs, rest)) :
    ts = (moreUnits fs).flatten ++ rest ∧ ∀ f ∈ fs, f.type.Normal := by
  induction n generalizing ts fs with
  | zero => simp [takeMore] at h
  | succ n ih =>
      rw [takeMore.eq_def] at h
      split at h
      · simp at *
      · next m us hn =>
          obtain rfl := Nat.succ.inj hn
          simp only [Option.bind_eq_bind, Option.bind_eq_some_iff, Prod.exists, Option.pure_def,
            Option.some.injEq, Prod.mk.injEq] at h
          obtain ⟨f, ts₁, hf, others, ts₂, hothers, rfl, rfl⟩ := h
          obtain ⟨rfl, nf⟩ := of_take? hf
          obtain ⟨rfl, nothers⟩ := ih hothers
          exact ⟨by simp [moreUnits], List.forall_mem_cons.mpr ⟨nf, nothers⟩⟩
      · obtain ⟨rfl, rfl⟩ := by simpa using h
        simp [moreUnits]

/-- After a field a semicolon or the closing brace comes. -/
theorem FieldType.exists_head (fs : List FieldType) (us : List Lexeme) :
    ∃ l vs, (moreUnits fs).flatten ++ .symbol .braceClose :: us = l :: vs ∧
      l ≠ .symbol .caret := by
  cases fs with
  | nil => exact ⟨_, _, rfl, by simp⟩
  | cons f fs => exact ⟨.symbol .semicolon, _, rfl, by simp⟩

theorem FieldType.takeMore_units {n : Nat} {fs : List FieldType} (h : ∀ f ∈ fs, f.type.Normal)
    (hn : fs.length < n) (us : List Lexeme) :
    takeMore n ((moreUnits fs).flatten ++ .symbol .braceClose :: us) =
      some (fs, .symbol .braceClose :: us) := by
  induction fs generalizing n with
  | nil =>
      obtain ⟨n, rfl⟩ : ∃ m, n = m + 1 := ⟨n - 1, by omega⟩
      rfl
  | cons f fs ih =>
      obtain ⟨n, rfl⟩ : ∃ m, n = m + 1 := ⟨n - 1, by omega⟩
      obtain ⟨hf, hfs⟩ := List.forall_mem_cons.mp h
      have hmore := ih hfs (n := n) (by simpa using hn)
      obtain ⟨l, vs, hvs, hl⟩ := exists_head fs us
      have hf := take?_units hf hl vs
      rw [hvs] at hmore
      have hsplit : (moreUnits (f :: fs)).flatten ++ .symbol .braceClose :: us =
          .symbol .semicolon :: (f.units.flatten ++ l :: vs) := by
        rw [← hvs]
        simp [moreUnits]
      rw [hsplit]
      simp [takeMore, hf, hmore]

theorem FieldType.length_le_moreUnits (fs : List FieldType) :
    fs.length ≤ (moreUnits fs).flatten.length := by
  induction fs with
  | nil => simp
  | cons f fs ih =>
      simp only [moreUnits, List.flatMap_cons, List.flatten_append, List.length_append,
        List.flatten_cons, List.length_cons] at ih ⊢
      omega

theorem Definition.eq_of_takeVariants (ts : List Lexeme) {variants : List Text}
    (h : takeVariants ts = (variants, rest)) :
    ts = (variantUnits variants).flatten ++ rest ∧
      ∀ t us, rest ≠ .symbol .bar :: .capital t :: us := by
  fun_induction takeVariants ts generalizing variants with
  | case1 t ts variants' ts' hmore ih =>
      obtain ⟨rfl, rfl⟩ : t :: variants' = variants ∧ ts' = rest := by simpa [hmore] using h
      obtain ⟨rfl, hrest⟩ := ih hmore
      exact ⟨by simp [variantUnits], hrest⟩
  | case2 ts hne =>
      obtain ⟨rfl, rfl⟩ : [] = variants ∧ ts = rest := by simpa using h
      exact ⟨rfl, hne⟩

theorem Definition.takeVariants_units (variants : List Text)
    (h : ∀ t us, ts ≠ .symbol .bar :: .capital t :: us) :
    takeVariants ((variantUnits variants).flatten ++ ts) = (variants, ts) := by
  induction variants with
  | nil => exact takeVariants.eq_2 ts h
  | cons t variants ih =>
      simp only [variantUnits, List.flatMap_cons, List.cons_append, List.nil_append,
        List.flatten_cons] at ih ⊢
      rw [takeVariants, ih]

theorem Definition.of_takeType {n : Name} {d : Definition}
    (h : takeType n ts = some (d, rest)) :
    .kw .type :: .word n :: .symbol .equal :: ts = d.units.flatten ++ rest ∧ d.Fits rest := by
  unfold takeType at h
  split at h
  · simp only [Option.bind_eq_bind, Option.bind_eq_some_iff, Prod.exists, Option.pure_def,
      Option.some.injEq, Prod.mk.injEq, Lexeme.skip_eq_some_iff] at h
    obtain ⟨f, ts₁, hf, fs, ts₂, hfs, ts₃, rfl, rfl, rfl⟩ := h
    obtain ⟨rfl, nf⟩ := FieldType.of_take? hf
    obtain ⟨rfl, nfs⟩ := FieldType.of_takeMore hfs
    exact ⟨by simp [units], List.forall_mem_cons.mpr ⟨nf, nfs⟩⟩
  · next t us =>
      obtain ⟨rfl, rfl⟩ := by simpa using h
      obtain ⟨heq, hrest⟩ := eq_of_takeVariants us (Prod.eta _).symm
      exact ⟨by simpa [units, Units.barIf] using heq, hrest⟩
  · next t us =>
      obtain ⟨rfl, rfl⟩ := by simpa using h
      obtain ⟨heq, hrest⟩ := eq_of_takeVariants us (Prod.eta _).symm
      exact ⟨by simpa [units, Units.barIf] using heq, hrest⟩
  · simp at h

theorem Definition.take?_eq_some_iff {d : Definition} :
    take? ts = some (d, rest) ↔ ts = d.units.flatten ++ rest ∧ d.Fits rest := by
  constructor
  · intro h
    unfold take? at h
    split at h
    · simp only [Option.bind_eq_bind, Option.bind_eq_some_iff, Prod.exists, Option.pure_def,
        Option.some.injEq, Prod.mk.injEq, Component.take?_eq_some_iff] at h
      obtain ⟨c, ts₁, ⟨rfl, hmemory, hfits⟩, rfl, rfl⟩ := h
      exact ⟨by simp [units, hmemory], hfits⟩
    · simp only [Option.bind_eq_bind, Option.bind_eq_some_iff, Prod.exists, Option.pure_def,
        Option.some.injEq, Prod.mk.injEq, Component.take?_eq_some_iff] at h
      obtain ⟨c, ts₁, ⟨rfl, hmemory, hfits⟩, rfl, rfl⟩ := h
      exact ⟨by simp [units, hmemory], hfits⟩
    · simp only [Option.bind_eq_bind, Option.bind_eq_some_iff, Prod.exists,
        Name.take?_eq_some_iff, Lexeme.skip_eq_some_iff] at h
      obtain ⟨name, ts₁, rfl, ts₂, rfl, h⟩ := h
      exact of_takeType h
    · simp at h
  · rintro ⟨rfl, hfits⟩
    cases d with
    | component c =>
        have hc : ∀ memory, Component.take? memory (c.units.flatten ++ rest) = some (c, rest) ↔ _ :=
          fun memory => Component.take?_eq_some_iff
        cases hmemory : c.hasMemory with
        | true => simp [units, hmemory, take?, (hc true).mpr ⟨rfl, hmemory, hfits⟩]
        | false => simp [units, hmemory, take?, (hc false).mpr ⟨rfl, hmemory, hfits⟩]
    | record n f fs =>
        obtain ⟨hf, hfs⟩ := List.forall_mem_cons.mp hfits
        have hlength := FieldType.length_le_moreUnits fs
        have hmore := FieldType.takeMore_units hfs
          (n := ((FieldType.moreUnits fs).flatten ++ .symbol .braceClose :: rest).length + 1)
          (by simp only [List.length_append]; omega) rest
        obtain ⟨l, vs, hvs, hl⟩ := FieldType.exists_head fs rest
        have hf := FieldType.take?_units hf hl vs
        rw [← hvs] at hf
        rw [units]
        simp only [List.flatten_cons, List.flatten_append, List.append_assoc, List.cons_append,
          List.nil_append, List.flatten_nil, take?, Name.take?, Lexeme.skip, if_true, takeType, hf,
          hmore, Option.bind_eq_bind, Option.bind_some, Option.pure_def]
    | enumeration n bar t variants =>
        have hvariants := takeVariants_units variants hfits
        cases bar <;> simp [units, Units.barIf, take?, Name.take?, Lexeme.skip, takeType, hvariants]

/-! ## Programs -/

theorem Definition.one_le_length_units (d : Definition) : 1 ≤ d.units.flatten.length := by
  cases d <;> simp [units]

theorem Program.of_takeIn {n : Nat} {p : Program} (h : takeIn n ts = some p) :
    ts = p.units.flatten ∧ p.Fits := by
  induction n generalizing ts p with
  | zero =>
      cases ts with
      | nil =>
          obtain rfl := by simpa [takeIn] using h
          exact ⟨rfl, trivial⟩
      | cons t us => simp [takeIn] at h
  | succ n ih =>
      cases ts with
      | nil =>
          obtain rfl := by simpa [takeIn] using h
          exact ⟨rfl, trivial⟩
      | cons t us =>
          simp only [takeIn, Option.bind_eq_bind, Option.bind_eq_some_iff, Prod.exists,
            Option.pure_def, Option.some.injEq, Definition.take?_eq_some_iff] at h
          obtain ⟨d, ts₁, ⟨heq, hfits⟩, ds, hds, rfl⟩ := h
          obtain ⟨rfl, hrest⟩ := ih hds
          exact ⟨by rw [heq]; simp [units], hfits, hrest⟩

theorem Program.takeIn_units {n : Nat} {p : Program} (h : p.Fits)
    (hn : p.units.flatten.length ≤ n) : takeIn n p.units.flatten = some p := by
  induction p generalizing n with
  | nil => cases n <;> rfl
  | cons d ds ih =>
      obtain ⟨hd, hds⟩ := h
      have hlength := d.one_le_length_units
      have hunits : units (d :: ds) = d.units ++ units ds := by simp [units]
      simp only [hunits, List.flatten_append, List.length_append] at hn ⊢
      obtain ⟨n, rfl⟩ : ∃ m, n = m + 1 := ⟨n - 1, by omega⟩
      have hd := Definition.take?_eq_some_iff.mpr ⟨rfl, hd⟩
      have hds := ih hds (n := n) (by omega)
      obtain ⟨t, us, hus⟩ : ∃ t us, d.units.flatten = t :: us := by
        cases hunits : d.units.flatten with
        | nil => simp [hunits] at hlength
        | cons t us => exact ⟨t, us, rfl⟩
      simp only [hus, List.cons_append] at hd ⊢
      simp [takeIn, hd, hds]

/-- A program is read exactly from its own units, and only if it is how they are read. -/
theorem Program.ofLexemes?_eq_some_iff {p : Program} :
    ofLexemes? ts = some p ↔ ts = p.units.flatten ∧ p.Fits := by
  constructor
  · exact of_takeIn
  · rintro ⟨rfl, hfits⟩
    exact takeIn_units hfits (Nat.le_refl _)

end Heptagon
