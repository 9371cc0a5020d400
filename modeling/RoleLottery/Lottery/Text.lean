import RoleLottery.Lottery.Basic
import RoleLottery.Text.Printable
import RoleLottery.Text.Quoted

/-!
# Summary of a lottery

One line with the owner of a lottery, the numbers of its clients, and whether the next draw computes
the shares anew.
-/

namespace RoleLottery.Lottery

variable {α ω γ : Type} [Amount α]

def summary (l : Lottery α ω γ) : String :=
  let allocator := match l.settings.allocator with
    | some name => "Some(" ++ Text.quote Text.isPrintable name ++ ")"
    | none => "None"
  "RandomSorter \x7b allocator: " ++ allocator ++ ", clients: " ++ toString l.tree.clients.size ++
    ", active: " ++ toString l.tree.activeCount ++ ", sort_dirty: " ++ toString l.cache.isDirty ++
    " \x7d"

end RoleLottery.Lottery
