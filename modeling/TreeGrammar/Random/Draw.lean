import TreeGrammar.Failure

/-!
# Drawing

A computation that draws is a tree of requests: it is done, or it asks for something and goes on
with the answer. It fixes neither the answers nor their distribution, so one computation serves a
seeded generator, a script of answers and a statement about all answers alike. A source may refuse a
request, and the computation decides what becomes of that.

* `Request`: what can be asked for.
* `Draw`: computations that draw, a lawful monad.
* `Draw.numberBelow`, `Draw.heads`, `Draw.word`: the requests as computations that may fail.
-/

namespace TreeGrammar

/-- What can be asked for: a number in `[0, total)`, a toss of a fair coin (1 for heads), and a
number in `[0, 2 ^ 32)`. -/
inductive Request where
  | below (total : Int)
  | coin
  | word

/-- Computations that draw. -/
inductive Draw (α : Type) where
  | done (a : α)
  | ask (r : Request) (next : Except Failure Int → Draw α)

namespace Draw

/-- Goes on after a computation is done. -/
def bind {α β : Type} (x : Draw α) (f : α → Draw β) : Draw β :=
  match x with
  | done a => f a
  | ask r next => ask r fun answer => (next answer).bind f

instance : Monad Draw where
  pure := done
  bind := Draw.bind

/-- A result alone asks for nothing. -/
@[simp] theorem pure_eq {α : Type} (a : α) : (pure a : Draw α) = done a := rfl

/-- Equation lemma: what follows a result is given that result. -/
@[simp] theorem done_bind {α β : Type} (a : α) (f : α → Draw β) : (done a >>= f) = f a := rfl

/-- Equation lemma: what follows a request waits for its answer. -/
@[simp] theorem ask_bind {α β : Type} (r : Request) (next : Except Failure Int → Draw α)
    (f : α → Draw β) : (ask r next >>= f) = ask r fun answer => next answer >>= f := rfl

/-- To go on with the result alone changes nothing. -/
theorem bind_done {α : Type} (x : Draw α) : x.bind done = x := by
  induction x with
  | done a => rfl
  | ask r next ih => exact congrArg (ask r) (funext ih)

/-- What follows may be grouped either way. -/
theorem bind_bind {α β γ : Type} (x : Draw α) (f : α → Draw β) (g : β → Draw γ) :
    (x.bind f).bind g = x.bind fun a => (f a).bind g := by
  induction x with
  | done a => rfl
  | ask r next ih => exact congrArg (ask r) (funext ih)

instance : LawfulMonad Draw :=
  LawfulMonad.mk' Draw bind_done (fun _ _ => rfl) bind_bind

/-- Asks for a number in `[0, total)`. -/
def numberBelow (total : Int) : ExceptT Failure Draw Int :=
  ExceptT.mk (ask (.below total) done)

/-- Tosses a fair coin, and says whether it shows heads. -/
def heads : ExceptT Failure Draw Bool :=
  ExceptT.mk (ask .coin fun answer => done (answer.map (· == 1)))

/-- Asks for a number in `[0, 2 ^ 32)`. -/
def word : ExceptT Failure Draw Int :=
  ExceptT.mk (ask .word done)

end Draw

end TreeGrammar
