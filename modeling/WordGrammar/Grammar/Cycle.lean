import WordGrammar.Grammar.Basic

namespace WordGrammar.Grammar

variable {W : Type}

/-- The rules done with so far, or the circle that ended the search. -/
abbrev Search := Except (List String) (List String)

/-- Follows references in order from the end of `path`; `visit` searches below a rule that is
    neither on the path nor done with. -/
def follow (path : List String) (visit : String → List String → Search) :
    List String → List String → Search
  | [], done => .ok done
  | next :: others, done =>
    if next ∈ path then .error (path.dropWhile (· != next))
    else if next ∈ done then follow path visit others done
    else do
      let done ← visit next done
      follow path visit others done

/-- Searches below a rule that is reached along `path`, depth first, and then is done with it
    (`find_cycle`). A name without a rule leads nowhere. The depth is never used up when it exceeds
    the number of rules not on the path. -/
def visit (g : Grammar W) : Nat → List String → String → List String → Search
  | 0, _, _, done => .ok done
  | depth + 1, path, name, done =>
    match g.rule? name with
    | none => .ok done
    | some r => do
      let path := path ++ [name]
      let done ← follow path (g.visit depth path) r.edges done
      .ok (name :: done)

/-- The first circle of references met below the root, beginning with the rule that closes it
    (`detect_cycle`). -/
def cycle? (g : Grammar W) : Option (List String) :=
  match g.visit (g.rules.length + 1) [] g.root [] with
  | .ok _ => none
  | .error cycle => some cycle

end WordGrammar.Grammar
