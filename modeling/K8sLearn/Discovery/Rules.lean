import K8sLearn.Lib.Pattern

/-! # The rules of the scanner

Ten rules match single lines of a source file. A rule hits a line when one of its patterns and
one of its source words are in the line and none of its guard words is in the six lines that end
there; the rule for divisions also passes over divisions by a literal.
-/

namespace K8sLearn.Discovery

open Pattern

structure Rule where
  id : String
  cwe : String
  name : String
  patterns : List Pattern
  srcKw : List String
  guardKw : List String
  excludeConst : Bool

variable (u : CharTables)

def rules : List Rule :=
  let w := u.isWord
  let words : Pattern := plus w
  let star : Pattern := spaces ++ text "*" ++ spaces
  [{ id := "R1", cwe := "CWE-369", name := "除零"
     patterns := [text "/" ++ spaces ++ words, text "%" ++ spaces ++ words]
     srcKw := ["dims->data", "SizeOfDimension", "dim_size", "params->", "stride", "window",
       "length", "->data[", "shape"]
     guardKw := ["> 0", "!= 0", "ENSURE", "OP_REQUIRES", "CHECK"]
     excludeConst := true },
   { id := "R2", cwe := "CWE-476", name := "空指针解引用"
     patterns := [text "->", text "*" ++ [.one w]]
     srcKw := ["GetTensorData", "flat<", "GetInput", "reinterpret_cast", "->data()", "indices"]
     guardKw := ["!= nullptr", "if (", "ENSURE", "OP_REQUIRES", "TF_LITE_ENSURE", "nullptr"]
     excludeConst := false },
   { id := "R3", cwe := "CWE-1284", name := "零维缺失验证"
     patterns := [text "dims->data[" ++ words ++ text "]", text "shape_data[" ++ words ++ text "]",
       text "dim_size(" ++ words ++ text ")"]
     srcKw := ["dims->data", "shape_data", "dim_size", "SizeOfDimension"]
     guardKw := ["> 0", "ENSURE", "OP_REQUIRES", "TF_LITE_ENSURE", "< 0"]
     excludeConst := false },
   { id := "R4", cwe := "CWE-190", name := "整数溢出"
     patterns := [text "new" ++ plus Str.isSpace ++ words ++ spaces ++ text "[" ++
         [.many fun c => c ≠ ']'] ++ text "*" ++ [.one w],
       text "malloc(" ++ [.many fun c => c ≠ ')'] ++ text "*" ++ [.one w]]
     srcKw := ["new", "malloc", "*", "dim"]
     guardKw := ["Overflow", "SafeMultiply", "kint32max", "INT32_MAX"]
     excludeConst := false },
   { id := "R5", cwe := "CWE-787", name := "越界写入"
     patterns := [words ++ spaces ++ text "+" ++ spaces ++ words ++ text "*" ++ words ++
         text "*" ++ [.one w]]
     srcKw := ["+", "*", "offset"]
     guardKw := ["ENSURE", "CHECK", "bound"]
     excludeConst := false },
   { id := "R6", cwe := "CWE-196", name := "有符号转无符号"
     patterns := [text "new" ++ plus Str.isSpace ++ words ++ spaces ++ text "[" ++ words ++
         text "]"]
     srcKw := ["new", "int"]
     guardKw := ["abs(", "std::abs", "ENSURE"]
     excludeConst := false },
   { id := "R7", cwe := "CWE-345", name := "验证可选"
     patterns := [text "BuildFromBuffer", text "VerifyAndBuildFromBuffer"]
     srcKw := ["BuildFromBuffer", "Verify"]
     guardKw := ["Verify"]
     excludeConst := false },
   { id := "R8", cwe := "CWE-125", name := "越界读取"
     patterns := [words ++ text "[" ++ words ++ spaces ++
         [.one fun c => c = '+' || c = '-' || c = '*'] ++ spaces ++ words ++ text "]"]
     srcKw := ["[", "]", "index"]
     guardKw := ["ENSURE", "CHECK", "< ", "size()"]
     excludeConst := false },
   { id := "R9", cwe := "CWE-680", name := "溢出尺寸分配"
     patterns := [text "=" ++ spaces ++ words ++ star ++ words ++ star ++ words]
     srcKw := ["size", "=", "*"]
     guardKw := ["Overflow", "SafeMultiply"]
     excludeConst := false },
   { id := "R10", cwe := "CWE-131", name := "缓冲区尺寸计算错误"
     patterns := [text "malloc(" ++ words ++ star ++ words ++ text ")"]
     srcKw := ["malloc", "*"]
     guardKw := ["sizeof", "element"]
     excludeConst := false }]

def constDiv : Pattern :=
  [.one fun c => c = '/' || c = '%'] ++ spaces ++ plus u.isDigit ++ [.boundary]

def anyIn (words : List String) (s : Str) : Bool := Str.containsAny (words.map String.toList) s

/-- `SASTScanner._match`, for the line `ln` with the number `i`. -/
def matchesLine (rule : Rule) (ln : Str) (lines : List Str) (i : ℕ) : Bool :=
  rule.patterns.any fun pat =>
    search u pat ln && anyIn rule.srcKw ln && !(rule.excludeConst && search u (constDiv u) ln) &&
      !anyIn rule.guardKw (Str.join ['\n'] ((lines.take i).drop (i - 6)))

def numbered (lines : List Str) (lo hi : ℕ) : Str :=
  Str.join ['\n'] ((lines.zipIdx.take hi).drop lo |>.map fun l =>
    Nat.toDigits 10 (l.2 + 1) ++ ": ".toList ++ l.1)

def context (lines : List Str) (i : ℕ) : Str := numbered lines (i - 3) (i + 2)

theorem nodup_rules_id : ((rules u).map Rule.id).Nodup := by
  simp [rules]

end K8sLearn.Discovery
