/-!
# Traced computations

A traced computation is a value together with the events it caused, oldest first. Predicates and
transformers are asked through it, so that a statement about them can speak of which tests and
calls happened and in which order, and not only of the answers.
-/

namespace LayeredMultimap

/-- A value and the events that led to it, oldest first. -/
@[ext]
structure Traced (E α : Type) where
  trace : List E
  value : α

namespace Traced

variable {E α β : Type}

/-- One event and no value of interest. -/
def emit (e : E) : Traced E Unit := ⟨[e], ()⟩

/-- A traced computation that comes after the given events. -/
def after (t : List E) (x : Traced E α) : Traced E α := ⟨t ++ x.trace, x.value⟩

instance : Monad (Traced E) where
  pure a := ⟨[], a⟩
  bind x f := ⟨x.trace ++ (f x.value).trace, (f x.value).value⟩

@[simp] theorem trace_pure (a : α) : (pure a : Traced E α).trace = [] := rfl

@[simp] theorem value_pure (a : α) : (pure a : Traced E α).value = a := rfl

@[simp] theorem trace_bind (x : Traced E α) (f : α → Traced E β) :
    (x >>= f).trace = x.trace ++ (f x.value).trace := rfl

@[simp] theorem value_bind (x : Traced E α) (f : α → Traced E β) :
    (x >>= f).value = (f x.value).value := rfl

@[simp] theorem trace_map (f : α → β) (x : Traced E α) : (f <$> x).trace = x.trace :=
  List.append_nil _

@[simp] theorem value_map (f : α → β) (x : Traced E α) : (f <$> x).value = f x.value := rfl

@[simp] theorem trace_after (t : List E) (x : Traced E α) : (x.after t).trace = t ++ x.trace := rfl

@[simp] theorem value_after (t : List E) (x : Traced E α) : (x.after t).value = x.value := rfl

instance : LawfulMonad (Traced E) :=
  LawfulMonad.mk' _
    (fun x => by ext1 <;> simp)
    (fun a f => by ext1 <;> simp)
    (fun x f g => by ext1 <;> simp)

end Traced

end LayeredMultimap
