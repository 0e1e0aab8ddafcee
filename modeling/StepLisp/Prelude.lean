namespace StepLisp

def preludeText : String := "(define (list & xs) xs)

(define (not x) (if x () #t))

(define (= a b) (if (< a b) () (not (< b a))))
(define (> a b) (< b a))
(define (<= a b) (not (< b a)))
(define (>= a b) (not (< a b)))

(define (cadr x) (car (cdr x)))
(define (cddr x) (cdr (cdr x)))
(define (caddr x) (car (cddr x)))

(define (abs x) (if (< x 0) (- x) x))

(define (foldl f acc xs)
  (if (null? xs)
      acc
      (foldl f (f acc (car xs)) (cdr xs))))

(define (length xs)
  (foldl (lambda (n _) (+ n 1)) 0 xs))

(define (reverse xs)
  (foldl (lambda (acc x) (cons x acc)) () xs))

(define (append a b)
  (foldl (lambda (acc x) (cons x acc)) b (reverse a)))

(define (map f xs)
  (reverse (foldl (lambda (acc x) (cons (f x) acc)) () xs)))

(define (for-each f xs)
  (cond ((null? xs) ())
        (#t (f (car xs)) (for-each f (cdr xs)))))

(define (filter keep? xs)
  (reverse (foldl (lambda (acc x) (if (keep? x) (cons x acc) acc)) () xs)))

(special (let bindings & body)
  (eval (cons (cons 'lambda (cons (map car bindings) body))
              (map cadr bindings))
        1))
"

end StepLisp
