import OrangeSQL.StatementReading

/-! Chains of SELECT bodies joined by set operations. The operand behind an operation is parsed by
the procedure for a whole SELECT, which takes in the rest of the chain. -/
namespace OrangeSQL

open Parsing

/-- How set operations group the bodies of a SELECT. -/
inductive SetTree
  | body (node : SelectNode)
  | operation (op : SetOperation) (left right : SetTree)

mutual

/-- The left operand of a node's operation is the node without it. -/
def SelectNode.grouping : SelectNode → SetTree
  | ⟨distinct,selectList,fromTables,joins,whereClause,groupBy,having,orderBy,limit,setOperation,
      setOperand⟩ =>
    groupingWith setOperation (.body ⟨distinct,selectList,fromTables,joins,whereClause,groupBy,having,
      orderBy,limit,.NONE,none⟩) setOperand

def groupingWith (op : SetOperation) (left : SetTree) : Option SelectNode → SetTree
  | none => left
  | some q => .operation op left q.grouping

end

namespace SQLParser

/-- The parser reads the tokens as the body, before a set operation and before the end. -/
def ReadsBody (stod : Text → Option UInt64) (ts : List Lexeme) (b : SelectNode) : Prop :=
  ∀ n, ts.length ≤ n → ∀ rest, Follows 7 rest → Parses (parseBody (calls stod n)) (ts++rest) b rest

/-- A SELECT body with its tokens. -/
structure Body (stod : Text → Option UInt64) where
  tokens : List Lexeme
  node : SelectNode
  reads : ReadsBody stod tokens node

/-- An operation and the body behind it. -/
structure Joined (stod : Text → Option UInt64) extends Body stod where
  op : SetOperation
  op_ne : op ≠ .NONE

section Groupings

variable {stod : Text → Option UInt64}

def chainTokens (first : Body stod) : List (Joined stod) → List Lexeme
  | [] => first.tokens
  | j::chain => first.tokens++(printSetOperation j.op++chainTokens j.toBody chain)

/-- `A op (B op' (C …))`. -/
def groupedRight (first : Body stod) : List (Joined stod) → SetTree
  | [] => .body first.node
  | j::chain => .operation j.op (.body first.node) (groupedRight j.toBody chain)

/-- `((A op B) op' C) …`. -/
def groupedLeft (first : Body stod) (chain : List (Joined stod)) : SetTree :=
  chain.foldl (fun tree j => .operation j.op tree (.body j.node)) (.body first.node)

theorem groupedLeft_concat (first : Body stod) (chain : List (Joined stod)) (j : Joined stod) :
    groupedLeft first (chain++[j]) = .operation j.op (groupedLeft first chain) (.body j.node) := by
  simp [groupedLeft]

theorem groupedLeft_ne_body (first : Body stod) {chain : List (Joined stod)} (hne : chain ≠ [])
    (node : SelectNode) : groupedLeft first chain ≠ .body node := by
  obtain rfl | ⟨front,last,rfl⟩ := List.eq_nil_or_concat' chain
  · exact absurd rfl hne
  · rw [groupedLeft_concat]
    nofun

/-- From three bodies on the two groupings differ. -/
theorem groupedRight_ne_groupedLeft (first : Body stod) (chain : List (Joined stod))
    (h : 2 ≤ chain.length) : groupedRight first chain ≠ groupedLeft first chain := by
  obtain rfl | ⟨front,last,rfl⟩ := List.eq_nil_or_concat' chain
  · simp at h
  · rw [groupedLeft_concat]
    cases front with
    | nil => simp at h
    | cons j front =>
      intro heq
      injection heq with _ hleft
      exact groupedLeft_ne_body first (List.cons_ne_nil j front) _ hleft.symm

end Groupings

section Chain

variable {stod : Text → Option UInt64} {n : ℕ} {rest : List Lexeme}

theorem readsBody_print {s : SelectNode} (hs : s.Printable (Reparses stod printNode)) :
    ReadsBody stod (printSelect printNode s.body) s.body := by
  intro n hn rest hrest
  have hpos := length_printSelect_pos printNode s.body
  obtain ⟨n,rfl⟩ := Nat.exists_eq_add_of_le' (show 1 ≤ n by omega)
  exact (reads_calls stod printNode n).selectBody hs hn hrest

theorem grouping_of_body {b : SelectNode} (hb : b.body = b) (op : SetOperation)
    (operand : Option SelectNode) :
    { b with setOperation := op, setOperand := operand }.grouping =
      groupingWith op (.body b) operand := by
  cases b
  cases hb
  rfl

theorem length_printSetOperation_pos {op : SetOperation} (hop : op ≠ .NONE) :
    0 < (printSetOperation op).length := by
  cases op with
  | NONE => exact absurd rfl hop
  | _ => exact Nat.zero_lt_succ _

theorem follows_printSetOperation {op : SetOperation} (hop : op ≠ .NONE) (ts : List Lexeme) :
    Follows 7 (printSetOperation op++ts) := by
  cases op with
  | NONE => exact absurd rfl hop
  | _ => exact le_rfl

/-- The SELECT behind an operation takes in the chain from there on. -/
theorem exists_parses_chain (first : Body stod) (chain : List (Joined stod))
    (hn : (chainTokens first chain).length ≤ n) (hrest : Follows 8 rest) :
    ∃ node, Parses (parseSelect (calls stod n)) (chainTokens first chain++rest) node rest ∧
      node.grouping = groupedRight first chain := by
  induction chain generalizing first n with
  | nil =>
    have hbody := first.reads n hn rest (hrest.mono (by decide))
    obtain ⟨hfirst,hselect⟩ := parses_select_of_body hbody (parses_setOperation_none hrest)
    exact ⟨_,hselect,grouping_of_body hfirst .NONE none⟩
  | cons j chain ih =>
    have hpos := length_printSetOperation_pos j.op_ne
    simp only [chainTokens,List.length_append] at hn
    obtain ⟨n,rfl⟩ := Nat.exists_eq_add_of_le' (show 1 ≤ n by omega)
    obtain ⟨operand,hoperand,hright⟩ := ih (n := n) j.toBody (by omega)
    have hop : Parses (parseSetOperation (calls stod (n+1)))
        (printSetOperation j.op++(chainTokens j.toBody chain++rest)) (j.op,some operand) rest :=
      parses_setOperation j.op_ne hoperand (headType_of_parseSelect hoperand)
    have hbody := first.reads (n+1) (by omega) _
      (follows_printSetOperation j.op_ne (chainTokens j.toBody chain++rest))
    obtain ⟨hfirst,hselect⟩ := parses_select_of_body hbody hop
    refine ⟨{ first.node with setOperation := j.op, setOperand := some operand },?_,?_⟩
    · simpa only [chainTokens,List.append_assoc] using hselect
    · rw [grouping_of_body hfirst,groupingWith,hright,groupedRight]

/-- The tokens are read, before everything that ends a SELECT, as nodes grouped like the tree. -/
def ParsedAs (stod : Text → Option UInt64) (ts : List Lexeme) (tree : SetTree) : Prop :=
  ∀ n, ts.length ≤ n → ∀ rest, Follows 8 rest →
    ∃ node, Parses (parseSelect (calls stod n)) (ts++rest) node rest ∧ node.grouping = tree

theorem parsedAs_groupedRight (first : Body stod) (chain : List (Joined stod)) :
    ParsedAs stod (chainTokens first chain) (groupedRight first chain) :=
  fun _ hn _ hrest => exists_parses_chain first chain hn hrest

def allOf (t : Char) : Body (fun _ => none) where
  tokens := printSelect printNode (selectAll t).body
  node := (selectAll t).body
  reads := by
    have hprintable : (selectAll t).Printable (Reparses (fun _ => none) printNode) := by
      constructor <;> simp [selectAll]
    exact readsBody_print hprintable

/-- `SELECT * FROM A EXCEPT SELECT * FROM B EXCEPT SELECT * FROM C`. -/
theorem except_not_parsedAs_groupedLeft :
    ¬ParsedAs (fun _ => none)
      (chainTokens (allOf 'A') [⟨allOf 'B',.EXCEPT,by decide⟩,⟨allOf 'C',.EXCEPT,by decide⟩])
      (groupedLeft (allOf 'A') [⟨allOf 'B',.EXCEPT,by decide⟩,⟨allOf 'C',.EXCEPT,by decide⟩]) := by
  intro h
  have hends : Follows 8 [] := le_rfl
  obtain ⟨node,hnode,hleft⟩ := h _ le_rfl [] hends
  obtain ⟨node',hnode',hright⟩ := exists_parses_chain (allOf 'A')
    [⟨allOf 'B',.EXCEPT,by decide⟩,⟨allOf 'C',.EXCEPT,by decide⟩] le_rfl hends
  obtain ⟨rfl,_⟩ := hnode.unique hnode'
  exact groupedRight_ne_groupedLeft _ _ le_rfl (hright.symm.trans hleft)

end Chain

end SQLParser

end OrangeSQL
