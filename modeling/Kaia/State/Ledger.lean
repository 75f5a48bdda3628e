import Kaia.Foundation.Ledger
import Kaia.State.Refine

/-! # The balances of the state database

Setting a balance in the state database changes the balance of that address and no other, whether or
not the account was there. States whose balances are not negative form a ledger.
-/

namespace Kaia

open Foundation

namespace World

variable (w : World) (a b : Address) (amount : ℤ)

def balance : ℤ := w.read a 0 (·.account.balance)

theorem getOrNew_find (acc : Account) (h : b ≠ a) : (w.getOrNew a acc).2.find b = w.find b := by
  unfold getOrNew
  split
  · rfl
  · unfold create
    split
    · exact find_setObject_of_ne h
    · exact find_setObject_of_ne h

theorem getOrNew_live (acc : Account) : (w.getOrNew a acc).1.deleted = false := by
  unfold getOrNew
  split
  · next o ho => exact (find_eq_some.mp ho).2
  · rfl

theorem balance_setBalance :
    (w.setBalance a amount).balance = Function.update w.balance a amount := by
  funext b
  unfold balance read setBalance
  by_cases hb : b = a
  · subst hb
    rw [Function.update_self, find_change]
    · rfl
    · exact w.getOrNew_live b eoa
  · rw [Function.update_of_ne hb]
    have hfind : ((w.getOrNew a eoa).2.change a ((w.getOrNew a eoa).1.setBalance amount)).find b =
        w.find b := (find_setObject_of_ne hb).trans (w.getOrNew_find a b eoa hb)
    exact congrArg (fun o : Option Obj => (o.map (·.account.balance)).getD 0) hfind

end World

namespace StateDB

/-- A state whose balances are not negative. -/
def Solvent (s : StateDB) : Prop := s.Wf ∧ ∀ a, 0 ≤ s.view.balance a

variable {s : StateDB}

theorem Wf.getBalance (h : s.Wf) (a : Address) : (s.getBalance a).1 = s.view.balance a := by
  obtain ⟨s', hread, -, -⟩ := h.readObject a (0 : ℤ) (·.account.balance) (·.account.balance)
    fun _ => rfl
  exact congrArg Prod.fst hread

theorem Wf.view_setBalance (h : s.Wf) (a : Address) (amount : ℤ) :
    (s.setBalance a amount).view.balance = Function.update s.view.balance a amount := by
  rw [(h.setBalance a amount).2, World.balance_setBalance]

theorem Solvent.setBalance (h : s.Solvent) (a : Address) (amount : ℕ) :
    (s.setBalance a amount).Solvent := by
  refine ⟨(h.1.setBalance a amount).1.wf, fun b => ?_⟩
  rw [h.1.view_setBalance]
  by_cases hb : b = a
  · subst hb
    rw [Function.update_self]
    exact Int.natCast_nonneg _
  · rw [Function.update_of_ne hb]
    exact h.2 b

/-- The state database as a ledger. -/
def ledger : Ledger {s : StateDB // s.Solvent} Address where
  getBalance s a := (s.1.getBalance a).1.toNat
  setBalance s a amount := ⟨s.1.setBalance a amount, s.2.setBalance a amount⟩
  getBalance_setBalance s a amount := by
    funext b
    rw [(s.2.setBalance a amount).1.getBalance, s.2.1.view_setBalance]
    by_cases hb : b = a
    · subst hb
      rw [Function.update_self, Function.update_self, Int.toNat_natCast]
    · rw [Function.update_of_ne hb, Function.update_of_ne hb, s.2.1.getBalance]

end StateDB
end Kaia
