import Heptagon.Program
import Heptagon.Proofs.Declaration.Written

/-!
# Plain programs

A program is plain if none of its names is spelled like a keyword, no state has
a quote in its name, and no parenthesis is set apart from what is before it.
Such a program says what each of its tokens is by its spelling alone, except
for the names of states, which may be spelled in any way.
-/

namespace Heptagon

/-- Whether the word is spelled like no keyword. -/
def Word.isPlain : Word → Bool
  | plain _ => true
  | keyword _ => false

theorem Word.isOperand_of_isPlain {w : Word} (h : w.isPlain = true) : w.isOperand = true := by
  cases w with
  | plain t => rfl
  | keyword k => simp [isPlain] at h

theorem Word.isTypeName_of_isPlain {w : Word} (h : w.isPlain = true) : w.isTypeName := by
  cases w with
  | plain t => simp [isTypeName]
  | keyword k => simp [isPlain] at h

mutual

def Literal.Plain : Literal → Prop
  | .array es => es.Plain
  | _ => True

def Expr.Plain : Expr → Prop
  | .literal l => l.Plain
  | .name n => n.isPlain
  | .paren o e => o = .plain ∧ e.Plain
  | .tuple o e f es => o = .plain ∧ e.Plain ∧ f.Plain ∧ es.Plain
  | .record n e fs => n.isPlain ∧ e.Plain ∧ fs.Plain
  | .call f args => f.isPlain ∧ args.Plain
  | .unary _ e => e.Plain
  | .binary l _ r => l.Plain ∧ r.Plain
  | .cond c y n => c.Plain ∧ y.Plain ∧ n.Plain

def Exprs.Plain : Exprs → Prop
  | .nil => True
  | .cons e es => e.Plain ∧ es.Plain

def Fields.Plain : Fields → Prop
  | .nil => True
  | .cons n e fs => n.isPlain ∧ e.Plain ∧ fs.Plain

def Args.Plain : Args → Prop
  | .nil => True
  | .group e es rest => e.Plain ∧ es.Plain ∧ rest.Plain

end

def Size.Plain : Size → Prop
  | name n => n.isPlain
  | number _ => True

def Ty.Plain : Ty → Prop
  | base _ => True
  | named n => n.isPlain
  | array t s => t.Plain ∧ s.Plain

structure Sampling.Plain (s : Sampling) : Prop where
  state : s.state.Normal
  opening : s.opening = .plain
  variable_ : s.variable_.isPlain

structure VarGroup.Plain (g : VarGroup) : Prop where
  names : ∀ n ∈ g.first :: g.others, n.isPlain
  type : g.type.Plain
  clock : ∀ c ∈ g.clock, ∀ s ∈ c.first :: c.others, s.Plain

def Init.Plain : Init → Prop
  | name n => n.isPlain
  | literal l => l.Plain

def Declaration.Plain : Declaration → Prop
  | plain g => g.Plain
  | last g i => g.Plain ∧ i.Plain

def Params.Plain : Params → Prop
  | empty o => o = .plain
  | list o d ds _ => o = .plain ∧ ∀ d' ∈ d :: ds, d'.Plain

def Locals.Plain (l : Locals) : Prop := ∀ d ∈ l.first :: l.others, d.Plain

def Target.Plain : Target → Prop
  | single n => n.isPlain
  | several o n ns => o = .plain ∧ ∀ n' ∈ n :: ns, n'.isPlain

structure Equation.Plain (e : Equation) : Prop where
  target : e.target.Plain
  value : e.value.Plain

def Equations.Plain (es : Equations) : Prop := ∀ e ∈ es.first :: es.others, e.Plain

structure Transition.Plain (t : Transition) : Prop where
  guard : t.guard.Plain
  goal : t.goal.Normal

mutual

def Statement.Plain : Statement → Prop
  | .equations es => es.Plain
  | .automaton locals states => (∀ l ∈ locals, l.Plain) ∧ states.Plain
  | .switch x cases => x.isPlain ∧ cases.Plain
  | .present branches => branches.Plain
  | .reset body e => body.Plain ∧ e.Plain

def Statements.Plain : Statements → Prop
  | .nil => True
  | .cons s ss => s.Plain ∧ ss.Plain

def States.Plain : States → Prop
  | .nil => True
  | .cons name locals body transitions tail => name.Normal ∧ (∀ l ∈ locals, l.Plain) ∧
      body.Plain ∧ (∀ t ∈ transitions, t.Plain) ∧ tail.Plain

def Cases.Plain : Cases → Prop
  | .nil => True
  | .cons _ s ss tail => s.Plain ∧ ss.Plain ∧ tail.Plain

def Branches.Plain : Branches → Prop
  | .nil => True
  | .otherwise s => s.Plain
  | .cons e s tail => e.Plain ∧ s.Plain ∧ tail.Plain

end

structure Component.Plain (c : Component) : Prop where
  name : c.name.isPlain
  generic : ∀ g ∈ c.generic, g.name.isPlain ∧ g.type.Plain
  inputs : c.inputs.Plain
  outputs : c.outputs.Plain
  locals : ∀ l ∈ c.locals, l.Plain
  body : c.body.Plain

def FieldType.Plain (f : FieldType) : Prop := f.name.isPlain ∧ f.type.Plain

def Definition.Plain : Definition → Prop
  | component c => c.Plain
  | record n f fs => n.isPlain ∧ ∀ f' ∈ f :: fs, f'.Plain
  | enumeration n _ _ _ => n.isPlain

def Program.Plain (p : Program) : Prop := ∀ d ∈ p, d.Plain

end Heptagon
