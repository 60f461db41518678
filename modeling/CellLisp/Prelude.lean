/-!
The definitions that a session starts with, in the language itself.
-/

namespace CellLisp.Prelude

def source : String := "# Definitions loaded into the global scope before the first prompt.

(def nil (list))

(def null (lambda (l) (= l nil)))

# (map f l): apply f to every element of l.
(def map (lambda (f l)
  (if (null l)
    (list)
    (cons (f (car l)) (map f (cdr l))))))

# (filter p l): the elements of l for which p is true.
(def filter (lambda (p l)
  (if (null l)
    (list)
    (if (p (car l))
      (cons (car l) (filter p (cdr l)))
      (filter p (cdr l))))))

# (reduce f acc l): fold l from the left, starting from acc.
(def reduce (lambda (f acc l)
  (if (null l)
    acc
    (reduce f (f acc (car l)) (cdr l)))))
"

end CellLisp.Prelude
