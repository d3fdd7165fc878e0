import ShaderSplit.Syntax.Expr

namespace ShaderSplit.Expr

mutual
def sameValue : Expr → Expr → Bool
  | literal m a, literal n b => m.ty == n.ty && a == b
  | constant m a, constant n b => m.ty == n.ty && a.same b
  | param m i, param n j => m.ty == n.ty && i == j
  | localVar m v _, localVar n w _ => m.ty == n.ty && v == w
  | binary m o a b, binary n p c d => m.ty == n.ty && o == p && a.sameValue c && b.sameValue d
  | unary m o a, unary n p b => m.ty == n.ty && o == p && a.sameValue b
  | construct m as, construct n bs => m.ty == n.ty && allSame as bs
  | cast m a, cast n b => m.ty == n.ty && a.sameValue b
  | initList m as, initList n bs => m.ty == n.ty && allSame as bs
  | call m f as, call n g bs => m.ty == n.ty && f == g && allSame as bs
  | methodCall m f a as, methodCall n g b bs =>
    m.ty == n.ty && f == g && a.sameValue b && allSame as bs
  | member m a f, member n b g => m.ty == n.ty && f == g && a.sameValue b
  | interface m r, interface n s => m.ty == n.ty && r == s
  | _, _ => false
def allSame : List Expr → List Expr → Bool
  | [], [] => true
  | a :: as, b :: bs => a.sameValue b && allSame as bs
  | _, _ => false
end

end ShaderSplit.Expr
